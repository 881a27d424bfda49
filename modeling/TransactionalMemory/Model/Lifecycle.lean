import TransactionalMemory.Model.Thread

/-!
# `tm_begin`, `tm_end` and `transaction_cleanup`
-/

namespace TransactionalMemory

variable {V : Type} [Zero V] (platform : Platform V) (tm : Tm V) (choice : Choice V)

/-- `tm_begin`. Its failures return `invalid_tx` and leave `cleanup_lock` as it is. -/
def tmBeginStep (isRo : Bool) : BeginPc → Move V
  | .rdlock => if tm.writer then .blocked else .op .rdlock (.beginning isRo .body)
  | .body =>
      if !choice.mallocOk 0 then .op .tau (.returning (.begin false) none)
      else if !choice.mallocOk 1 || (!isRo && !choice.mallocOk 2) then
        .op (.loadClock tm.globalVersion) (.returning (.begin false) none)
      else
        .op (.loadClock tm.globalVersion) (.returning (.begin true)
          (some (Tx.start tm.globalVersion isRo (bfInit choice.garbage (toInt tm.align)))))

/-- `transaction_cleanup(tm, t, true)`: everything but the unlock frees private memory. -/
def transactionCleanupStep (r : Ret V) : Move V := .op .rdunlock (.returning r none)

def tmEndStep (t : Tx V) : EndPc → Move V
  | .start =>
      if t.isRo || t.ws.isEmpty then .op .rdunlock (.returning (.finish true) none)
      else .op .tau (.ending { t with ws := platform.qsort wsItemCmp t.ws } (.tryLoad 0))
  | .tryLoad i =>
      match t.ws[i]? with
      | none => .op .tau (.ending t .fetchAdd)
      | some item =>
          let w := item.versionedLock
          if tm.valid w then
            if vlTryLockRefuses (tm.lock w) t.rv then
              .op (.loadLock w (tm.lock w)) (.ending t (.rollback i 0))
            else .op (.loadLock w (tm.lock w)) (.ending t (.tryCas i (tm.lock w)))
          else .crash
  | .tryCas i prev =>
      match t.ws[i]? with
      | none => .crash
      | some item =>
          let w := item.versionedLock
          if tm.valid w then
            if tm.lock w = prev then .op (.casLock w prev true) (.ending t (.tryLoad (i + 1)))
            else .op (.casLock w prev false) (.ending t (.rollback i 0))
          else .crash
  | .rollback i j =>
      if j < i then
        match t.ws[j]? with
        | none => .crash
        | some item =>
            if tm.valid item.versionedLock then
              .op (.fetchSubLock item.versionedLock) (.ending t (.rollback i (j + 1)))
            else .crash
      else .op .tau (.aborting t (.finish false))
  | .fetchAdd =>
      match checkedInt (tm.globalVersion + 1) with
      | none => .crash
      | some wv =>
          -- no other commit has drawn a version since `rv` was sampled
          if t.rv + 1 = wv then .op (.fetchAddClock tm.globalVersion) (.ending t (.validated wv))
          else .op (.fetchAddClock tm.globalVersion) (.ending t (.validate wv 0))
  | .validate wv i =>
      match t.rs with
      | none => .crash
      | some rs =>
          match rs[i]? with
          | none => .op .tau (.ending t (.validated wv))
          | some ⟨_, none⟩ => .op .tau (.ending t (.validate wv (i + 1)))
          | some ⟨_, some w⟩ =>
              if tm.valid w then
                let read := vlReadVersion (tm.lock w)
                if read = -1 ∨ t.rv < read then
                  .op (.loadLock w (tm.lock w)) (.ending t (.undo wv 0))
                else .op (.loadLock w (tm.lock w)) (.ending t (.validate wv (i + 1)))
              else .crash
  | .undo wv j =>
      match t.ws[j]? with
      | none => .op .tau (.aborting t (.finish false))
      | some item =>
          if tm.valid item.versionedLock then
            .op (.fetchSubLock item.versionedLock) (.ending t (.undo wv (j + 1)))
          else .crash
  | .validated wv => .op (.commit wv t.writes) (.ending t (.copy wv 0))
  | .copy wv i =>
      match t.ws[i]? with
      | none => .op .tau (.ending t (if t.toFree.isEmpty then .unlockCleanup else .lockToFree))
      | some item =>
          if tm.valid item.rawAddr then
            .op (.copyIn item.rawAddr item.value) (.ending t (.release wv i))
          else .crash
  | .release wv i =>
      match t.ws[i]? with
      | none => .crash
      | some item =>
          if tm.valid item.versionedLock then
            .op (.storeLock item.versionedLock (vlUnlockUpdate wv)) (.ending t (.copy wv (i + 1)))
          else .crash
  | .lockToFree =>
      if tm.toFreeLock then .blocked else .op .lockToFree (.ending t (.push 0))
  | .push i =>
      match t.toFree[i]? with
      | none => .op .unlockToFree (.ending t .unlockCleanup)
      | some spot =>
          let full : Bool := decide (tm.toFreeSz ≤ (tm.toFree.length : Int) + 1)
          let capacity := if full then resize tm.toFreeSz else tm.toFreeSz
          if full && !choice.mallocOk 0 then .crash
          else if tm.toFreeNull && !full then .crash
          else if (tm.toFree.length : Int) < capacity then
            .op (.pushToFree spot capacity) (.ending t (.push (i + 1)))
          else .crash
  | .unlockCleanup => .op .rdunlock (.ending t .checkBatch)
  | .checkBatch =>
      if freeBatchsize ≤ tm.toFree.length then .op .loadToFreeN (.ending t .wrlock)
      else .op .loadToFreeN (.returning (.finish true) none)
  | .wrlock =>
      if tm.writer || tm.readers ≠ 0 then .blocked else .op .wrlock (.ending t (.drain 0))
  | .drain i =>
      match tm.toFree[i]? with
      | none => .op .resetToFree (.ending t .wrunlock)
      | some spot =>
          if spot < 0 then .crash
          else
            match tm.vaArr spot.toNat with
            | .garbage => .crash
            | .null => .op (.deleteSegment spot) (.ending t (.drain (i + 1)))
            | .segment s =>
                -- a segment that was never finished has no block to free at `data`
                match tm.segment s with
                | some ⟨_, _, .ready⟩ =>
                    if choice.mallocOk 0 then
                      .op (.deleteSegment spot) (.ending t (.drain (i + 1)))
                    else .crash
                | _ => .crash
  | .wrunlock => .op .wrunlock (.returning (.finish true) none)

end TransactionalMemory
