import TransactionalMemory.Library.Census
import TransactionalMemory.Model.RunSync

/-!
# Synchronised runs

One counter and one status serve two meetings in each run. Before a run the workers arrive one by
one and the last one resets the counter before it lets the others go; after it they are counted
again and the last one closes the run. In both meetings everyone else then waits for that one
worker, so nobody else writes, and after the second one the master alone goes on.
-/

namespace TransactionalMemory.Grading

open Concurrency

variable {Tid E : Type} [DecidableEq Tid] {w : Nat}

/-- The calls of a worker: how often `worker_wait` has returned true, the arguments of
`worker_notify`, and how often that has returned. -/
structure WorkerLog (E : Type) where
  waits : Nat
  passed : List (Option E)
  finished : Nat

structure RunRecord (Tid E : Type) where
  notifies : Nat
  answers : List (Answer E)
  worker : Tid → WorkerLog E

def RunRecord.initial : RunRecord Tid E := ⟨0, [], fun _ => ⟨0, [], 0⟩⟩

def RunRecord.write (r : RunRecord Tid E) (tid : Tid) (log : WorkerLog E) : RunRecord Tid E :=
  { r with worker := Function.update r.worker tid log }

def recordMaster (s : Sync Tid E w) (again : Bool) (r : RunRecord Tid E) : RunRecord Tid E :=
  match s.master with
  | .ready => if again then { r with notifies := r.notifies + 1 } else r
  | .loading =>
      if s.status = .done then { r with answers := r.answers ++ [.runtime] } else r
  | .loadingError => { r with answers := r.answers ++ [.error s.errmsg] }
  | _ => r

def WorkerLog.next (log : WorkerLog E) (s : Sync Tid E w) (tid : Tid) (error : Option E) :
    WorkerLog E :=
  match s.worker tid with
  | .releasing => { log with waits := log.waits + 1 }
  | .spinning =>
      if s.status = .run ∨ s.status = .abort then { log with waits := log.waits + 1 } else log
  | .running => { log with passed := log.passed ++ [error] }
  | .counting =>
      if s.nbready + 1 = s.nbworkers then log else { log with finished := log.finished + 1 }
  | .raising => { log with finished := log.finished + 1 }
  | _ => log

def recordRun (s : Sync Tid E w) (move : SyncMove Tid E) (r : RunRecord Tid E) : RunRecord Tid E :=
  match move with
  | .master again => recordMaster s again r
  | .worker tid error => r.write tid ((r.worker tid).next s tid error)

def runMachine (Tid E : Type) [DecidableEq Tid] [Fintype Tid] (w : Nat) :
    Machine (Sync Tid E w × RunRecord Tid E) (SyncMove Tid E) :=
  (syncMachine Tid E w).observe RunRecord.initial recordRun

/-- What the synchronisation is for. -/
structure Coordinates (s : Sync Tid E w) (r : RunRecord Tid E) : Prop where
  notified : ∀ t, (r.worker t).waits ≤ r.notifies
  /-- Nobody starts a run before everyone has finished the last one. -/
  together : ∀ t u, (r.worker t).waits ≤ (r.worker u).finished + 1
  /-- The master learns the end of a run after everyone has ended it. -/
  complete : ∀ t, r.answers.length ≤ (r.worker t).passed.length
  success : ∀ k : Nat, r.answers[k]? = some .runtime → ∀ t, (r.worker t).passed[k]? = some none
  failure : ∀ (k : Nat) msg, r.answers[k]? = some (.error msg) →
    ∃ t e, msg = some e ∧ (r.worker t).passed[k]? = some (some e)
  expected : s.master ≠ .unreachable

/-! ### Stages of a run -/

/-- The last worker to arrive and the last one to be counted act alone for a while. -/
inductive Stage (Tid E : Type) where
  | rest
  | gather
  | release (point : WorkerPoint E) (last : Tid)
  | run
  | close (point : WorkerPoint E) (last : Tid)
  | raised
  | loading
  | loadingError
  | joined

namespace WorkerLog

variable (k : Nat) (log : WorkerLog E)

def Before : Prop := log.waits = k ∧ log.passed.length = k ∧ log.finished = k

def Running : Prop := log.waits = k + 1 ∧ log.passed.length = k ∧ log.finished = k

def Notifying (error : Option E) : Prop :=
  log.waits = k + 1 ∧ log.passed.length = k + 1 ∧ log.finished = k ∧ log.passed[k]? = some error

end WorkerLog

def WorkerPoint.isSpinning : WorkerPoint E → Bool
  | .spinning => true
  | _ => false

def WorkerPoint.isPolling : WorkerPoint E → Bool
  | .polling => true
  | _ => false

namespace RunRecord

variable (r : RunRecord Tid E)

def Clean (k : Nat) : Prop := ∀ t, (r.worker t).passed[k]? = some none

def Faulty (k : Nat) (errmsg : Option E) : Prop :=
  ∃ t e, errmsg = some e ∧ (r.worker t).passed[k]? = some (some e)

structure Answered : Prop where
  success : ∀ k, r.answers[k]? = some .runtime → r.Clean k
  failure : ∀ k msg, r.answers[k]? = some (.error msg) → r.Faulty k msg

end RunRecord

/-- The status tells how run `k` has gone, and `errmsg` why. -/
def Verdict (success failure : Status) (k : Nat) (s : Sync Tid E w) (r : RunRecord Tid E) : Prop :=
  s.status = success ∧ r.Clean k ∨ s.status = failure ∧ r.Faulty k s.errmsg

structure Going (k : Nat) (s : Sync Tid E w) (r : RunRecord Tid E) : Prop where
  status : s.status = .run ∨ s.status = .abort
  clean : s.status = .run → ∀ t, s.worker t = .counting ∨ s.worker t = .polling →
    (r.worker t).passed[k]? = some none
  faulty : s.status = .abort → r.Faulty k s.errmsg
  stored : ∀ t, s.worker t = .storingAbort → r.Faulty k s.errmsg

namespace Stage

def master : Stage Tid E → MasterPoint
  | .rest => .ready
  | .loading => .loading
  | .loadingError => .loadingError
  | .joined => .joined
  | _ => .waiting

def latched : Stage Tid E → Bool
  | .raised => true
  | _ => false

def pending : Stage Tid E → Nat
  | .rest | .joined => 0
  | _ => 1

/-- Where a worker may stand, with what it has called, when `k` runs have been answered. -/
def Allows (k : Nat) (t : Tid) (log : WorkerLog E) : Stage Tid E → WorkerPoint E → Prop
  | .rest, .polling | .joined, .polling | .joined, .quit => log.Before k
  | .gather, .polling | .gather, .arriving | .gather, .spinning => log.Before k
  | .release x last, point =>
      log.Before k ∧ (t = last ∧ point = x ∨ t ≠ last ∧ point = .spinning)
  | .run, .spinning => log.Before k
  | .run, .running => log.Running k
  | .run, .storingError e => log.Notifying k (some e)
  | .run, .storingAbort => ∃ e, log.Notifying k (some e)
  | .run, .counting => ∃ error, log.Notifying k error
  | .run, .polling => log.Before (k + 1)
  | .close x last, point =>
      t = last ∧ point = x ∧ (∃ error, log.Notifying k error) ∨
        t ≠ last ∧ point = .polling ∧ log.Before (k + 1)
  | .raised, .polling | .loading, .polling | .loadingError, .polling => log.Before (k + 1)
  | _, _ => False

variable [Fintype Tid]

def State (k : Nat) (s : Sync Tid E w) (r : RunRecord Tid E) : Stage Tid E → Prop
  | .rest => s.nbready = 0 ∧ (s.status = .done ∨ s.status = .fail)
  | .gather =>
      s.nbready = BitVec.ofNat w (census (fun point => point.isSpinning = true) s.worker) ∧
        census (fun point => point.isSpinning = true) s.worker < Fintype.card Tid ∧ s.status = .wait
  | .release x _ => s.status = .wait ∧ (x = .resetting ∨ x = .releasing ∧ s.nbready = 0)
  | .run =>
      s.nbready = BitVec.ofNat w (census (fun point => point.isPolling = true) s.worker) ∧
        census (fun point => point.isPolling = true) s.worker < Fintype.card Tid ∧ Going k s r
  | .close x _ =>
      x = .clearing ∧ Verdict .run .abort k s r ∨ s.nbready = 0 ∧
        ((x = .closing ∨ x = .settling s.status) ∧ Verdict .run .abort k s r ∨
          x = .raising ∧ Verdict .done .fail k s r)
  | .raised | .loading => s.nbready = 0 ∧ Verdict .done .fail k s r
  | .loadingError => s.nbready = 0 ∧ s.status = .fail ∧ r.Faulty k s.errmsg
  | .joined => s.status = .quit

end Stage

variable [Fintype Tid]

structure InStage (stage : Stage Tid E) (k : Nat) (s : Sync Tid E w) (r : RunRecord Tid E) :
    Prop where
  nbworkers : s.nbworkers = BitVec.ofNat w (Fintype.card Tid)
  master : s.master = stage.master
  donelatch : s.donelatch = stage.latched
  state : stage.State k s r
  worker : ∀ t, stage.Allows k t (r.worker t) (s.worker t)
  notifies : r.notifies = k + stage.pending
  answers : r.answers.length = k
  answered : r.Answered

section Steps

variable {stage stage' : Stage Tid E} {k : Nat} {s : Sync Tid E w} {r : RunRecord Tid E}
  {tid last : Tid} {error : Option E} {x : WorkerPoint E}

/-! ### The record grows -/

theorem getElem?_of_prefix {xs ys : List (Option E)} {x : Option E} {k : Nat} (h : xs <+: ys)
    (hx : xs[k]? = some x) : ys[k]? = some x := by
  obtain ⟨zs, rfl⟩ := h
  rw [List.getElem?_append_left (List.getElem?_eq_some_iff.mp hx).1, hx]

section Log

variable {log : WorkerLog E} (hlog : (r.worker tid).passed <+: log.passed)
include hlog

omit [Fintype Tid] in
theorem passed_write {t : Tid} {x : Option E} (hx : (r.worker t).passed[k]? = some x) :
    ((r.write tid log).worker t).passed[k]? = some x := by
  by_cases ht : t = tid
  · subst ht
    simpa only [RunRecord.write, Function.update_self] using getElem?_of_prefix hlog hx
  · simpa only [RunRecord.write, Function.update_of_ne ht] using hx

omit [Fintype Tid] in
theorem RunRecord.Clean.write (h : r.Clean k) : (r.write tid log).Clean k :=
  fun t => passed_write hlog (h t)

omit [Fintype Tid] in
theorem RunRecord.Faulty.write {errmsg : Option E} (h : r.Faulty k errmsg) :
    (r.write tid log).Faulty k errmsg := by
  obtain ⟨t, e, herrmsg, he⟩ := h
  exact ⟨t, e, herrmsg, passed_write hlog he⟩

omit [Fintype Tid] in
theorem RunRecord.Answered.write (h : r.Answered) : (r.write tid log).Answered where
  success _ hk := (h.success _ hk).write hlog
  failure _ _ hk := (h.failure _ _ hk).write hlog

end Log

theorem getElem?_concat_cases {α : Type} {xs : List α} {a b : α} {i : Nat}
    (h : (xs ++ [a])[i]? = some b) : xs[i]? = some b ∨ i = xs.length ∧ b = a := by
  rcases Nat.lt_trichotomy i xs.length with hi | rfl | hi
  · rw [List.getElem?_append_left hi] at h
    exact .inl h
  · rw [List.getElem?_concat_length] at h
    exact .inr ⟨rfl, (Option.some.inj h).symm⟩
  · rw [List.getElem?_eq_none (by simp; omega)] at h
    cases h

omit [DecidableEq Tid] [Fintype Tid] in
theorem RunRecord.Answered.snoc {a : Answer E} (h : r.Answered)
    (hclean : a = .runtime → r.Clean r.answers.length)
    (hfaulty : ∀ msg, a = .error msg → r.Faulty r.answers.length msg) :
    ({ r with answers := r.answers ++ [a] } : RunRecord Tid E).Answered where
  success i hi := by
    rcases getElem?_concat_cases hi with hi | ⟨rfl, rfl⟩
    · exact h.success i hi
    · exact hclean rfl
  failure i msg hi := by
    rcases getElem?_concat_cases hi with hi | ⟨rfl, rfl⟩
    · exact h.failure i msg hi
    · exact hfaulty msg rfl

/-! ### What a worker's point says of the stage -/

def WorkerPoint.Places (stage : Stage Tid E) (k : Nat) (tid : Tid) (log : WorkerLog E) :
    WorkerPoint E → Prop
  | .arriving => stage = .gather ∧ log.Before k
  | .resetting => stage = .release .resetting tid ∧ log.Before k
  | .releasing => stage = .release .releasing tid ∧ log.Before k
  | .running => stage = .run ∧ log.Running k
  | .storingError e => stage = .run ∧ log.Notifying k (some e)
  | .storingAbort => stage = .run ∧ ∃ e, log.Notifying k (some e)
  | .counting => stage = .run ∧ ∃ error, log.Notifying k error
  | .clearing => stage = .close .clearing tid ∧ ∃ error, log.Notifying k error
  | .closing => stage = .close .closing tid ∧ ∃ error, log.Notifying k error
  | .settling status => stage = .close (.settling status) tid ∧ ∃ error, log.Notifying k error
  | .raising => stage = .close .raising tid ∧ ∃ error, log.Notifying k error
  | .polling | .spinning | .quit => True

omit [DecidableEq Tid] in
theorem InStage.places (h : InStage stage k s r) (tid : Tid) :
    (s.worker tid).Places stage k tid (r.worker tid) := by
  have hallows := h.worker tid
  have hstate := h.state
  cases stage with
  | release x last =>
      obtain ⟨hbefore, ⟨rfl, hpoint⟩ | ⟨-, hpoint⟩⟩ := hallows
      · obtain ⟨-, rfl | ⟨rfl, -⟩⟩ := hstate <;> rw [hpoint] <;> exact ⟨rfl, hbefore⟩
      · rw [hpoint]
        trivial
  | close x last =>
      obtain ⟨rfl, hpoint, hnotifying⟩ | ⟨-, hpoint, -⟩ := hallows
      · obtain ⟨rfl, -⟩ | ⟨-, ⟨rfl | rfl, -⟩ | ⟨rfl, -⟩⟩ := hstate <;> rw [hpoint] <;>
          exact ⟨rfl, hnotifying⟩
      · rw [hpoint]
        trivial
  | rest | gather | run | raised | loading | loadingError | joined =>
      cases hpoint : s.worker tid <;> rw [hpoint] at hallows <;> trivial

omit [DecidableEq Tid] in
theorem InStage.of_run (h : InStage stage k s r) (ht : s.worker tid = .spinning)
    (hstatus : s.status = .run ∨ s.status = .abort) : stage = .run ∧ (r.worker tid).Before k := by
  have hallows := h.worker tid
  have hstate := h.state
  rw [ht] at hallows
  cases stage <;> grind [Stage.Allows, Stage.State]

omit [DecidableEq Tid] in
theorem InStage.of_wait (h : InStage stage k s r) (ht : s.worker tid = .polling)
    (hstatus : s.status = .wait) : stage = .gather ∧ (r.worker tid).Before k := by
  have hallows := h.worker tid
  have hstate := h.state
  rw [ht] at hallows
  cases stage <;> grind [Stage.Allows, Stage.State, Verdict, Going]

omit [DecidableEq Tid] in
theorem InStage.of_quit (h : InStage stage k s r) (ht : s.worker tid = .polling)
    (hstatus : s.status = .quit) : stage = .joined ∧ (r.worker tid).Before k := by
  have hallows := h.worker tid
  have hstate := h.state
  rw [ht] at hallows
  cases stage <;> grind [Stage.Allows, Stage.State, Verdict, Going]

/-! ### Moves of a worker -/

section Moves

variable {s' : Sync Tid E w} {log : WorkerLog E}

theorem InStage.move (h : InStage stage k s r)
    (hs : s'.nbworkers = s.nbworkers ∧ s'.master = s.master ∧ s'.worker = s.worker)
    (hstage : stage'.master = stage.master ∧ stage'.pending = stage.pending)
    (hlatch : s'.donelatch = stage'.latched) (hlog : (r.worker tid).passed <+: log.passed)
    (hstate : stage'.State k (s'.goto tid x) (r.write tid log)) (hself : stage'.Allows k tid log x)
    (hothers : ∀ t, t ≠ tid → stage'.Allows k t (r.worker t) (s.worker t)) :
    InStage stage' k (s'.goto tid x) (r.write tid log) where
  nbworkers := hs.1.trans h.nbworkers
  master := hs.2.1.trans (h.master.trans hstage.1.symm)
  donelatch := hlatch
  state := hstate
  worker t := by
    by_cases ht : t = tid
    · subst ht
      simpa only [RunRecord.write, Sync.goto, Function.update_self] using hself
    · simpa only [RunRecord.write, Sync.goto, Function.update_of_ne ht, hs.2.2] using hothers t ht
  notifies := h.notifies.trans (by rw [hstage.2])
  answers := h.answers
  answered := h.answered.write hlog

omit [Fintype Tid] in
theorem Going.move (h : Going k s r) (c : BitVec w) (hlog : (r.worker tid).passed <+: log.passed)
    (hclean : s.status = .run → x = .counting ∨ x = .polling → log.passed[k]? = some none)
    (hstored : x = .storingAbort → r.Faulty k s.errmsg) :
    Going k ({ s with nbready := c }.goto tid x) (r.write tid log) where
  status := h.status
  clean hrun t ht := by
    by_cases htid : t = tid
    · subst htid
      simp only [Sync.goto, Function.update_self] at ht
      simpa only [RunRecord.write, Function.update_self] using hclean hrun ht
    · simp only [Sync.goto, Function.update_of_ne htid] at ht
      exact passed_write hlog (h.clean hrun t ht)
  faulty habort := (h.faulty habort).write hlog
  stored t ht := by
    by_cases htid : t = tid
    · subst htid
      simp only [Sync.goto, Function.update_self] at ht
      exact (hstored ht).write hlog
    · simp only [Sync.goto, Function.update_of_ne htid] at ht
      exact (h.stored t ht).write hlog

omit [Fintype Tid] in
theorem Verdict.move {success failure : Status} (h : Verdict success failure k s r)
    (hs : s'.status = s.status ∧ s'.errmsg = s.errmsg)
    (hlog : (r.worker tid).passed <+: log.passed) :
    Verdict success failure k s' (r.write tid log) := by
  rw [Verdict, hs.1, hs.2]
  exact h.imp (fun h => ⟨h.1, h.2.write hlog⟩) fun h => ⟨h.1, h.2.write hlog⟩

/-- A move within a run that is not counted. -/
theorem InStage.move_run (h : InStage .run k s r)
    (hs : s'.nbworkers = s.nbworkers ∧ s'.master = s.master ∧ s'.worker = s.worker)
    (hcounter : s'.nbready = s.nbready ∧ s'.donelatch = s.donelatch)
    (hpoint : (s.worker tid).isPolling = x.isPolling)
    (hlog : (r.worker tid).passed <+: log.passed) (hself : Stage.run.Allows k tid log x)
    (hgoing : Going k (s'.goto tid x) (r.write tid log)) :
    InStage .run k (s'.goto tid x) (r.write tid log) := by
  obtain ⟨hready, hless, -⟩ := h.state
  have hcensus : census (fun point => point.isPolling = true) (s'.goto tid x).worker =
      census (fun point => point.isPolling = true) s.worker := by
    rw [Sync.goto, hs.2.2]
    exact census_keep (by rw [hpoint])
  refine h.move hs ⟨rfl, rfl⟩ (hcounter.2.trans h.donelatch) hlog ⟨?_, ?_, hgoing⟩ hself
    fun t _ => h.worker t
  · rw [hcensus]
    exact hcounter.1.trans hready
  · rwa [hcensus]

end Moves

theorem InStage.arriving (hw : Fintype.card Tid < 2 ^ w) (h : InStage stage k s r)
    (ht : s.worker tid = .arriving) : ∃ stage', InStage stage' k (s.workerStep tid error)
      (r.write tid ((r.worker tid).next s tid error)) := by
  have hplaces := h.places tid
  rw [ht] at hplaces
  obtain ⟨rfl, hbefore⟩ := hplaces
  obtain ⟨hready, hless, hstatus⟩ := h.state
  have hlog : (r.worker tid).next s tid error = r.worker tid := by simp only [WorkerLog.next, ht]
  have hout : ¬ (fun point : WorkerPoint E => point.isSpinning = true) (s.worker tid) := by
    simp [ht, WorkerPoint.isSpinning]
  have hlast : s.nbready + 1 = s.nbworkers ↔
      census (fun point => point.isSpinning = true) s.worker + 1 = Fintype.card Tid := by
    rw [hready, h.nbworkers, ofNat_add_one, ofNat_inj (by omega) hw]
  simp only [Sync.workerStep, ht, hlog]
  by_cases hfull : s.nbready + 1 = s.nbworkers
  · have hspinning := forall_of_census_add_one hout (hlast.mp hfull)
    simp only [if_pos hfull]
    refine ⟨.release .resetting tid, h.move ⟨rfl, rfl, rfl⟩ ⟨rfl, rfl⟩ h.donelatch
      List.prefix_rfl ⟨hstatus, .inl rfl⟩ ⟨hbefore, .inl ⟨rfl, rfl⟩⟩ fun t htid => ?_⟩
    have hother := h.worker t
    have hspins := hspinning t htid
    cases hpoint : s.worker t <;> rw [hpoint] at hother hspins <;> try cases hspins
    exact ⟨hother, .inr ⟨htid, rfl⟩⟩
  · have hnotFull := mt hlast.mpr hfull
    simp only [if_neg hfull]
    have hcensus : census (fun point : WorkerPoint E => point.isSpinning = true)
        (Function.update s.worker tid .spinning) =
          census (fun point => point.isSpinning = true) s.worker + 1 := census_enter hout rfl
    refine ⟨.gather, h.move ⟨rfl, rfl, rfl⟩ ⟨rfl, rfl⟩ h.donelatch List.prefix_rfl
      ⟨?_, ?_, hstatus⟩ hbefore fun t _ => h.worker t⟩
    · rw [Sync.goto, hcensus, ← ofNat_add_one, ← hready]
    · rw [Sync.goto, hcensus]
      omega

theorem InStage.resetting (h : InStage stage k s r) (ht : s.worker tid = .resetting) :
    InStage (.release .releasing tid) k (s.workerStep tid error)
      (r.write tid ((r.worker tid).next s tid error)) := by
  have hplaces := h.places tid
  rw [ht] at hplaces
  obtain ⟨rfl, hbefore⟩ := hplaces
  simp only [Sync.workerStep, WorkerLog.next, ht]
  refine h.move ⟨rfl, rfl, rfl⟩ ⟨rfl, rfl⟩ h.donelatch List.prefix_rfl
    ⟨h.state.1, .inr ⟨rfl, rfl⟩⟩ ⟨hbefore, .inl ⟨rfl, rfl⟩⟩ fun t htid => ?_
  obtain ⟨hother, ⟨hself, -⟩ | hspins⟩ := h.worker t
  · exact (htid hself).elim
  · exact ⟨hother, .inr hspins⟩

theorem InStage.releasing (h : InStage stage k s r) (ht : s.worker tid = .releasing) :
    InStage .run k (s.workerStep tid error) (r.write tid ((r.worker tid).next s tid error)) := by
  have hplaces := h.places tid
  rw [ht] at hplaces
  obtain ⟨rfl, hwaits, hpassed, hfinished⟩ := hplaces
  have hready : s.nbready = 0 := by
    rcases h.state.2 with hreset | ⟨-, hready⟩
    · cases hreset
    · exact hready
  have hothers : ∀ t, t ≠ tid → (r.worker t).Before k ∧ s.worker t = .spinning := by
    intro t htid
    obtain ⟨hother, ⟨hself, -⟩ | ⟨-, hspins⟩⟩ := h.worker t
    · exact (htid hself).elim
    · exact ⟨hother, hspins⟩
  simp only [Sync.workerStep, WorkerLog.next, ht]
  have hpoint : ∀ t, Function.update s.worker tid .running t = .running ∨
      Function.update s.worker tid .running t = .spinning := by
    intro t
    by_cases htid : t = tid
    · subst htid
      exact .inl (Function.update_self ..)
    · exact .inr (by rw [Function.update_of_ne htid, (hothers t htid).2])
  have hnone : census (fun point : WorkerPoint E => point.isPolling = true)
      (Function.update s.worker tid .running) = 0 := by
    refine (census_eq_zero _).mpr fun t => ?_
    rcases hpoint t with hpoint | hpoint <;> simp [hpoint, WorkerPoint.isPolling]
  refine h.move ⟨rfl, rfl, rfl⟩ ⟨rfl, rfl⟩ h.donelatch List.prefix_rfl
    ⟨?_, ?_, .inl rfl, ?_, ?_, ?_⟩ ⟨congrArg (· + 1) hwaits, hpassed, hfinished⟩ fun t htid => ?_
  · rw [Sync.goto, hnone]
    exact hready
  · rw [Sync.goto, hnone]
    exact Fintype.card_pos_iff.mpr ⟨tid⟩
  · rintro - t ht
    rcases hpoint t with hpoint | hpoint <;> simp [Sync.goto, hpoint] at ht
  · rintro ⟨⟩
  · intro t ht
    rcases hpoint t with hpoint | hpoint <;> simp [Sync.goto, hpoint] at ht
  · rw [(hothers t htid).2]
    exact (hothers t htid).1

theorem InStage.spinning (h : InStage stage k s r) (ht : s.worker tid = .spinning) :
    InStage stage k (s.workerStep tid error) (r.write tid ((r.worker tid).next s tid error)) := by
  by_cases hstatus : s.status = .run ∨ s.status = .abort
  · obtain ⟨rfl, hwaits, hpassed, hfinished⟩ := h.of_run ht hstatus
    simp only [Sync.workerStep, WorkerLog.next, ht, if_pos hstatus]
    exact h.move_run ⟨rfl, rfl, rfl⟩ ⟨rfl, rfl⟩ (by rw [ht]; rfl) List.prefix_rfl
      ⟨congrArg (· + 1) hwaits, hpassed, hfinished⟩
      (h.state.2.2.move _ List.prefix_rfl (by rintro - (⟨⟨⟩⟩ | ⟨⟨⟩⟩)) (by rintro ⟨⟩))
  · simpa only [Sync.workerStep, WorkerLog.next, ht, if_neg hstatus, RunRecord.write,
      Function.update_eq_self] using h

theorem InStage.running (h : InStage stage k s r) (ht : s.worker tid = .running) :
    InStage .run k (s.workerStep tid error) (r.write tid ((r.worker tid).next s tid error)) := by
  have hplaces := h.places tid
  rw [ht] at hplaces
  obtain ⟨rfl, hwaits, hpassed, hfinished⟩ := hplaces
  have hgoing := h.state.2.2
  have hprefix := List.prefix_append (r.worker tid).passed [error]
  have hlast : ((r.worker tid).passed ++ [error])[k]? = some error := by
    rw [← hpassed, List.getElem?_concat_length]
  have hnotifying : ({ r.worker tid with passed := (r.worker tid).passed ++ [error] } :
      WorkerLog E).Notifying k error := ⟨hwaits, by simp [hpassed], hfinished, hlast⟩
  cases error with
  | none =>
      simp only [Sync.workerStep, WorkerLog.next, ht]
      exact h.move_run ⟨rfl, rfl, rfl⟩ ⟨rfl, rfl⟩ (by rw [ht]; rfl) hprefix ⟨_, hnotifying⟩
        (hgoing.move _ hprefix (fun _ _ => hlast) (by rintro ⟨⟩))
  | some e =>
      simp only [Sync.workerStep, WorkerLog.next, ht]
      exact h.move_run ⟨rfl, rfl, rfl⟩ ⟨rfl, rfl⟩ (by rw [ht]; rfl) hprefix hnotifying
        (hgoing.move _ hprefix (by rintro - (⟨⟨⟩⟩ | ⟨⟨⟩⟩)) (by rintro ⟨⟩))

theorem InStage.storingError {e : E} (h : InStage stage k s r)
    (ht : s.worker tid = .storingError e) :
    InStage .run k (s.workerStep tid error) (r.write tid ((r.worker tid).next s tid error)) := by
  have hplaces := h.places tid
  rw [ht] at hplaces
  obtain ⟨rfl, hnotifying⟩ := hplaces
  have hgoing := h.state.2.2
  have hfaulty : r.Faulty k (some e) := ⟨tid, e, rfl, hnotifying.2.2.2⟩
  simp only [Sync.workerStep, WorkerLog.next, ht]
  have hgoing' : Going k { s with errmsg := some e } r :=
    ⟨hgoing.status, hgoing.clean, fun _ => hfaulty, fun _ _ => hfaulty⟩
  exact h.move_run ⟨rfl, rfl, rfl⟩ ⟨rfl, rfl⟩ (by rw [ht]; rfl) List.prefix_rfl ⟨e, hnotifying⟩
    (hgoing'.move _ List.prefix_rfl (by rintro - (⟨⟨⟩⟩ | ⟨⟨⟩⟩)) fun _ => hfaulty)

theorem InStage.storingAbort (h : InStage stage k s r) (ht : s.worker tid = .storingAbort) :
    InStage .run k (s.workerStep tid error) (r.write tid ((r.worker tid).next s tid error)) := by
  have hplaces := h.places tid
  rw [ht] at hplaces
  obtain ⟨rfl, e, hnotifying⟩ := hplaces
  have hgoing := h.state.2.2
  have hfaulty := hgoing.stored tid ht
  simp only [Sync.workerStep, WorkerLog.next, ht]
  have hgoing' : Going k { s with status := .abort } r :=
    ⟨.inr rfl, by rintro ⟨⟩, fun _ => hfaulty, fun _ _ => hfaulty⟩
  exact h.move_run ⟨rfl, rfl, rfl⟩ ⟨rfl, rfl⟩ (by rw [ht]; rfl) List.prefix_rfl ⟨_, hnotifying⟩
    (hgoing'.move _ List.prefix_rfl (by rintro ⟨⟩) fun _ => hfaulty)

theorem InStage.counting (hw : Fintype.card Tid < 2 ^ w) (h : InStage stage k s r)
    (ht : s.worker tid = .counting) : ∃ stage', InStage stage' k (s.workerStep tid error)
      (r.write tid ((r.worker tid).next s tid error)) := by
  have hplaces := h.places tid
  rw [ht] at hplaces
  obtain ⟨rfl, passed, hnotifying⟩ := hplaces
  obtain ⟨hwaits, hpassed, hfinished, hlast⟩ := hnotifying
  obtain ⟨hready, hless, hgoing⟩ := h.state
  have hout : ¬ (fun point : WorkerPoint E => point.isPolling = true) (s.worker tid) := by
    simp [ht, WorkerPoint.isPolling]
  have hlastOne : s.nbready + 1 = s.nbworkers ↔
      census (fun point => point.isPolling = true) s.worker + 1 = Fintype.card Tid := by
    rw [hready, h.nbworkers, ofNat_add_one, ofNat_inj (by omega) hw]
  by_cases hfull : s.nbready + 1 = s.nbworkers
  · have hpolling := forall_of_census_add_one hout (hlastOne.mp hfull)
    have hothers : ∀ t, t ≠ tid → s.worker t = .polling := by
      intro t htid
      have hpolls := hpolling t htid
      cases hpoint : s.worker t <;> rw [hpoint] at hpolls <;> cases hpolls
    have hverdict : Verdict .run .abort k s r := by
      refine hgoing.status.imp (fun hrun => ⟨hrun, fun t => hgoing.clean hrun t ?_⟩)
        fun habort => ⟨habort, hgoing.faulty habort⟩
      by_cases htid : t = tid
      · exact .inl (htid ▸ ht)
      · exact .inr (hothers t htid)
    simp only [Sync.workerStep, WorkerLog.next, ht, if_pos hfull]
    refine ⟨.close .clearing tid, h.move ⟨rfl, rfl, rfl⟩ ⟨rfl, rfl⟩ h.donelatch List.prefix_rfl
      (.inl ⟨rfl, hverdict.move ⟨rfl, rfl⟩ List.prefix_rfl⟩)
      (.inl ⟨rfl, rfl, passed, hwaits, hpassed, hfinished, hlast⟩) fun t htid => ?_⟩
    have hother := h.worker t
    rw [hothers t htid] at hother ⊢
    exact .inr ⟨htid, rfl, hother⟩
  · have hnotFull := mt hlastOne.mpr hfull
    simp only [Sync.workerStep, WorkerLog.next, ht, if_neg hfull]
    have hcensus : census (fun point : WorkerPoint E => point.isPolling = true)
        (Function.update s.worker tid .polling) =
          census (fun point => point.isPolling = true) s.worker + 1 := census_enter hout rfl
    refine ⟨.run, h.move ⟨rfl, rfl, rfl⟩ ⟨rfl, rfl⟩ h.donelatch List.prefix_rfl ⟨?_, ?_, ?_⟩
      ⟨hwaits, hpassed, congrArg (· + 1) hfinished⟩ fun t _ => h.worker t⟩
    · rw [Sync.goto, hcensus, ← ofNat_add_one, ← hready]
    · rw [Sync.goto, hcensus]
      omega
    · exact hgoing.move _ List.prefix_rfl (fun hrun _ => hgoing.clean hrun tid (.inl ht))
        (by rintro ⟨⟩)

/-! ### The last worker closes the run -/

omit [DecidableEq Tid] in
theorem InStage.close (h : InStage (.close x last) k s r) : ∀ t, t ≠ last →
    s.worker t = .polling ∧ (r.worker t).Before (k + 1) := by
  intro t htid
  obtain ⟨hself, -⟩ | ⟨-, hother⟩ := h.worker t
  · exact (htid hself).elim
  · exact hother

theorem InStage.clearing (h : InStage stage k s r) (ht : s.worker tid = .clearing) :
    InStage (.close .closing tid) k (s.workerStep tid error)
      (r.write tid ((r.worker tid).next s tid error)) := by
  have hplaces := h.places tid
  rw [ht] at hplaces
  obtain ⟨rfl, hnotifying⟩ := hplaces
  have hverdict : Verdict .run .abort k s r := by
    rcases h.state with ⟨-, hverdict⟩ | ⟨-, ⟨⟨⟨⟩⟩ | ⟨⟨⟩⟩, -⟩ | ⟨⟨⟩, -⟩⟩
    exact hverdict
  simp only [Sync.workerStep, WorkerLog.next, ht]
  exact h.move ⟨rfl, rfl, rfl⟩ ⟨rfl, rfl⟩ h.donelatch List.prefix_rfl
    (.inr ⟨rfl, .inl ⟨.inl rfl, hverdict.move ⟨rfl, rfl⟩ List.prefix_rfl⟩⟩)
    (.inl ⟨rfl, rfl, hnotifying⟩) fun t htid => .inr ⟨htid, h.close t htid⟩

theorem InStage.closing (h : InStage stage k s r) (ht : s.worker tid = .closing) :
    InStage (.close (.settling s.status) tid) k (s.workerStep tid error)
      (r.write tid ((r.worker tid).next s tid error)) := by
  have hplaces := h.places tid
  rw [ht] at hplaces
  obtain ⟨rfl, hnotifying⟩ := hplaces
  obtain ⟨hready, hverdict⟩ : s.nbready = 0 ∧ Verdict .run .abort k s r := by
    rcases h.state with ⟨⟨⟩, -⟩ | ⟨hready, ⟨-, hverdict⟩ | ⟨⟨⟩, -⟩⟩
    exact ⟨hready, hverdict⟩
  simp only [Sync.workerStep, WorkerLog.next, ht]
  exact h.move ⟨rfl, rfl, rfl⟩ ⟨rfl, rfl⟩ h.donelatch List.prefix_rfl
    (.inr ⟨hready, .inl ⟨.inr rfl, hverdict.move ⟨rfl, rfl⟩ List.prefix_rfl⟩⟩)
    (.inl ⟨rfl, rfl, hnotifying⟩) fun t htid => .inr ⟨htid, h.close t htid⟩

theorem InStage.settling {status : Status} (h : InStage stage k s r)
    (ht : s.worker tid = .settling status) :
    InStage (.close .raising tid) k (s.workerStep tid error)
      (r.write tid ((r.worker tid).next s tid error)) := by
  have hplaces := h.places tid
  rw [ht] at hplaces
  obtain ⟨rfl, hnotifying⟩ := hplaces
  obtain ⟨hready, rfl, hverdict⟩ :
      s.nbready = 0 ∧ status = s.status ∧ Verdict .run .abort k s r := by
    rcases h.state with ⟨⟨⟩, -⟩ | ⟨hready, ⟨⟨⟨⟩⟩ | hstatus, hverdict⟩ | ⟨⟨⟩, -⟩⟩
    exact ⟨hready, WorkerPoint.settling.inj hstatus, hverdict⟩
  simp only [Sync.workerStep, WorkerLog.next, ht]
  have hsettled : Verdict .done .fail k
      { s with status := if s.status = .abort then .fail else .done } r := by
    rcases hverdict with ⟨hrun, hclean⟩ | ⟨habort, hfaulty⟩
    · exact .inl ⟨by simp [hrun], hclean⟩
    · exact .inr ⟨if_pos habort, hfaulty⟩
  exact h.move ⟨rfl, rfl, rfl⟩ ⟨rfl, rfl⟩ h.donelatch List.prefix_rfl
    (.inr ⟨hready, .inr ⟨rfl, hsettled.move ⟨rfl, rfl⟩ List.prefix_rfl⟩⟩)
    (.inl ⟨rfl, rfl, hnotifying⟩) fun t htid => .inr ⟨htid, h.close t htid⟩

theorem InStage.raising (h : InStage stage k s r) (ht : s.worker tid = .raising) :
    InStage .raised k (s.workerStep tid error)
      (r.write tid ((r.worker tid).next s tid error)) := by
  have hplaces := h.places tid
  rw [ht] at hplaces
  obtain ⟨rfl, passed, hwaits, hpassed, hfinished, -⟩ := hplaces
  obtain ⟨hready, hverdict⟩ : s.nbready = 0 ∧ Verdict .done .fail k s r := by
    rcases h.state with ⟨⟨⟩, -⟩ | ⟨hready, ⟨⟨⟨⟩⟩ | ⟨⟨⟩⟩, -⟩ | ⟨-, hverdict⟩⟩
    exact ⟨hready, hverdict⟩
  simp only [Sync.workerStep, WorkerLog.next, ht]
  refine h.move ⟨rfl, rfl, rfl⟩ ⟨rfl, rfl⟩ rfl List.prefix_rfl
    ⟨hready, hverdict.move ⟨rfl, rfl⟩ List.prefix_rfl⟩ ⟨hwaits, hpassed, congrArg (· + 1) hfinished⟩
    fun t htid => ?_
  rw [(h.close t htid).1]
  exact (h.close t htid).2

/-! ### Waiting for a run or for the end -/

theorem InStage.polling (h : InStage stage k s r) (ht : s.worker tid = .polling) :
    InStage stage k (s.workerStep tid error) (r.write tid ((r.worker tid).next s tid error)) := by
  by_cases hwait : s.status = .wait
  · obtain ⟨rfl, hbefore⟩ := h.of_wait ht hwait
    obtain ⟨hready, hless, hstatus⟩ := h.state
    simp only [Sync.workerStep, WorkerLog.next, ht, if_pos hwait]
    have hcensus : census (fun point : WorkerPoint E => point.isSpinning = true)
        (Function.update s.worker tid .arriving) =
          census (fun point => point.isSpinning = true) s.worker :=
      census_keep (by simp [ht, WorkerPoint.isSpinning])
    exact h.move ⟨rfl, rfl, rfl⟩ ⟨rfl, rfl⟩ h.donelatch List.prefix_rfl
      ⟨hready.trans (congrArg _ hcensus.symm), hcensus.trans_lt hless, hstatus⟩ hbefore
      fun t _ => h.worker t
  · by_cases hquit : s.status = .quit
    · obtain ⟨rfl, hbefore⟩ := h.of_quit ht hquit
      simp only [Sync.workerStep, WorkerLog.next, ht, if_neg hwait, if_pos hquit]
      exact h.move ⟨rfl, rfl, rfl⟩ ⟨rfl, rfl⟩ h.donelatch List.prefix_rfl h.state hbefore
        fun t _ => h.worker t
    · simpa only [Sync.workerStep, WorkerLog.next, ht, if_neg hwait, if_neg hquit,
        RunRecord.write, Function.update_eq_self] using h

theorem InStage.workerStep (hw : Fintype.card Tid < 2 ^ w) (h : InStage stage k s r) :
    ∃ stage', InStage stage' k (s.workerStep tid error)
      (r.write tid ((r.worker tid).next s tid error)) := by
  cases ht : s.worker tid with
  | polling => exact ⟨_, h.polling ht⟩
  | arriving => exact h.arriving hw ht
  | resetting => exact ⟨_, h.resetting ht⟩
  | releasing => exact ⟨_, h.releasing ht⟩
  | spinning => exact ⟨_, h.spinning ht⟩
  | running => exact ⟨_, h.running ht⟩
  | storingError e => exact ⟨_, h.storingError ht⟩
  | storingAbort => exact ⟨_, h.storingAbort ht⟩
  | counting => exact h.counting hw ht
  | clearing => exact ⟨_, h.clearing ht⟩
  | closing => exact ⟨_, h.closing ht⟩
  | settling status => exact ⟨_, h.settling ht⟩
  | raising => exact ⟨_, h.raising ht⟩
  | quit =>
      refine ⟨stage, ?_⟩
      simpa only [Sync.workerStep, WorkerLog.next, ht, RunRecord.write,
        Function.update_eq_self] using h

/-! ### Moves of the master -/

omit [DecidableEq Tid] in
theorem InStage.between (h : InStage stage k s r)
    (hstage : stage = .raised ∨ stage = .loading ∨ stage = .loadingError) :
    ∀ t, s.worker t = .polling ∧ (r.worker t).Before (k + 1) := by
  intro t
  have hworker := h.worker t
  rcases hstage with rfl | rfl | rfl <;> cases hpoint : s.worker t <;> rw [hpoint] at hworker <;>
    first | exact hworker.elim | exact ⟨rfl, hworker⟩

omit [DecidableEq Tid] in
theorem InStage.rest (h : InStage .rest k s r) :
    ∀ t, s.worker t = .polling ∧ (r.worker t).Before k := by
  intro t
  have hworker := h.worker t
  cases hpoint : s.worker t <;> rw [hpoint] at hworker <;>
    first | exact hworker.elim | exact ⟨rfl, hworker⟩

omit [DecidableEq Tid] [Fintype Tid] in
theorem allows_of_polling {k' : Nat} (h : ∀ t, s.worker t = .polling ∧ (r.worker t).Before k')
    (hstage : ∀ t log, WorkerLog.Before k' log → stage'.Allows k t log .polling) :
    ∀ t, stage'.Allows k t (r.worker t) (s.worker t) := by
  intro t
  rw [(h t).1]
  exact hstage t _ (h t).2

omit [DecidableEq Tid] in
theorem InStage.masterStep [Nonempty Tid] {again : Bool} (h : InStage stage k s r) :
    ∃ stage' k', InStage stage' k' (s.masterStep again) (recordMaster s again r) := by
  have hmaster := h.master
  cases stage with
  | rest =>
      cases again with
      | true =>
          have hnone : census (fun point : WorkerPoint E => point.isSpinning = true) s.worker = 0 :=
            (census_eq_zero _).mpr fun t => by simp [(h.rest t).1, WorkerPoint.isSpinning]
          simp only [Sync.masterStep, recordMaster, hmaster, Stage.master, if_true]
          refine ⟨.gather, k, h.nbworkers, rfl, h.donelatch, ⟨?_, ?_, rfl⟩,
            allows_of_polling h.rest fun _ _ => id, congrArg (· + 1) h.notifies, h.answers,
            ⟨h.answered.success, h.answered.failure⟩⟩
          · rw [hnone]
            exact h.state.1
          · rw [hnone]
            exact Fintype.card_pos
      | false =>
          simp only [Sync.masterStep, recordMaster, hmaster, Stage.master, Bool.false_eq_true,
            if_false]
          exact ⟨.joined, k, h.nbworkers, rfl, h.donelatch, rfl,
            allows_of_polling h.rest fun _ _ => id, h.notifies, h.answers, h.answered⟩
  | raised =>
      have hraised : s.donelatch = true := h.donelatch
      simp only [Sync.masterStep, recordMaster, hmaster, Stage.master, hraised, if_true]
      exact ⟨.loading, k, h.nbworkers, rfl, rfl, h.state,
        allows_of_polling (h.between (.inl rfl)) fun _ _ => id, h.notifies, h.answers, h.answered⟩
  | loading =>
      have hpolling := h.between (.inr (.inl rfl))
      obtain ⟨hready, ⟨hdone, hclean⟩ | ⟨hfail, hfaulty⟩⟩ := h.state
      · simp only [Sync.masterStep, recordMaster, hmaster, Stage.master, hdone, if_true]
        refine ⟨.rest, k + 1, h.nbworkers, rfl, h.donelatch, ⟨hready, .inl rfl⟩,
          allows_of_polling hpolling fun _ _ => id, h.notifies, ?_, h.answered.snoc ?_ ?_⟩
        · simp [h.answers]
        · intro _
          rwa [h.answers]
        · rintro msg ⟨⟩
      · simp only [Sync.masterStep, recordMaster, hmaster, Stage.master, hfail, reduceCtorEq,
          if_false]
        exact ⟨.loadingError, k, h.nbworkers, rfl, h.donelatch, ⟨hready, rfl, hfaulty⟩,
          allows_of_polling hpolling fun _ _ => id, h.notifies, h.answers, h.answered⟩
  | loadingError =>
      obtain ⟨hready, hfail, hfaulty⟩ := h.state
      simp only [Sync.masterStep, recordMaster, hmaster, Stage.master]
      refine ⟨.rest, k + 1, h.nbworkers, rfl, h.donelatch, ⟨hready, .inr hfail⟩,
        allows_of_polling (h.between (.inr (.inr rfl))) fun _ _ => id, h.notifies, ?_,
        h.answered.snoc ?_ ?_⟩
      · simp [h.answers]
      · rintro ⟨⟩
      · rintro msg ⟨⟩
        rwa [h.answers]
  | joined =>
      have hstays : s.masterStep again = s ∧ recordMaster s again r = r := by
        simp only [Sync.masterStep, recordMaster, hmaster, Stage.master, and_self]
      rw [hstays.1, hstays.2]
      exact ⟨_, _, h⟩
  | gather | release | run | close =>
      have hlowered : s.donelatch = false := h.donelatch
      have hstays : s.masterStep again = s ∧ recordMaster s again r = r := by
        simp only [Sync.masterStep, recordMaster, hmaster, Stage.master, hlowered,
          Bool.false_eq_true, if_false, and_self]
      rw [hstays.1, hstays.2]
      exact ⟨_, _, h⟩

end Steps

/-! ### Every run -/

section Runs

variable {stage : Stage Tid E} {k : Nat} {s : Sync Tid E w} {r : RunRecord Tid E}

omit [DecidableEq Tid] in
theorem inStage_initial [Nonempty Tid] :
    InStage .rest 0 (Sync.initial Tid E w) RunRecord.initial where
  nbworkers := rfl
  master := rfl
  donelatch := rfl
  state := ⟨rfl, .inl rfl⟩
  worker _ := ⟨rfl, rfl, rfl⟩
  notifies := rfl
  answers := rfl
  answered := ⟨by rintro k ⟨⟩, by rintro k msg ⟨⟩⟩

omit [DecidableEq Tid] in
/-- Each call of a worker in the run that is not answered yet, or in the one before. -/
theorem InStage.log (h : InStage stage k s r) (t : Tid) :
    k ≤ (r.worker t).finished ∧ (r.worker t).waits ≤ k + stage.pending ∧
      k ≤ (r.worker t).passed.length := by
  have hallows := h.worker t
  generalize s.worker t = point at hallows
  cases stage <;> cases point <;>
    grind [Stage.Allows, Stage.pending, WorkerLog.Before, WorkerLog.Running, WorkerLog.Notifying]

omit [DecidableEq Tid] in
theorem InStage.coordinates (h : InStage stage k s r) : Coordinates s r where
  notified t := (h.log t).2.1.trans h.notifies.ge
  together t u := by
    have hwaits := (h.log t).2.1
    have hfinished := (h.log u).1
    have hpending : stage.pending ≤ 1 := by cases stage <;> simp [Stage.pending]
    omega
  complete t := h.answers.trans_le (h.log t).2.2
  success := h.answered.success
  failure := h.answered.failure
  expected hpoint := by
    have hmaster := h.master
    rw [hpoint] at hmaster
    cases stage <;> cases hmaster

end Runs

/-- **Runs are synchronised**: in every interleaving of the master with its workers. -/
theorem runs_coordinated [Nonempty Tid] (hw : Fintype.card Tid < 2 ^ w)
    {p : Sync Tid E w × RunRecord Tid E} (h : (runMachine Tid E w).Reachable p) :
    Coordinates p.1 p.2 := by
  have hstage : ∃ stage k, InStage stage k p.1 p.2 := by
    refine h.invariant (P := fun p => ∃ stage k, InStage stage k p.1 p.2) ?_ ?_
    · rintro ⟨s, r⟩ ⟨hs, hr⟩
      obtain rfl : s = _ := hs
      obtain rfl : r = _ := hr
      exact ⟨_, _, inStage_initial⟩
    · rintro ⟨s, r⟩ move ⟨s', r'⟩ - ⟨stage, k, hin⟩ ⟨hs', hr'⟩
      obtain rfl : s' = _ := hs'
      obtain rfl : r' = _ := hr'
      cases move with
      | master again => exact hin.masterStep
      | worker tid error =>
          obtain ⟨stage', h'⟩ := hin.workerStep hw
          exact ⟨stage', k, h'⟩
  obtain ⟨stage, k, hin⟩ := hstage
  exact hin.coordinates

def runSchedule (w : Nat) (moves : List (SyncMove Tid E)) : Sync Tid E w × RunRecord Tid E :=
  moves.foldl (fun p move => (p.1.step move, recordRun p.1 move p.2))
    (Sync.initial Tid E w, RunRecord.initial)

theorem runSchedule_reachable (moves : List (SyncMove Tid E)) :
    (runMachine Tid E w).Reachable (runSchedule w moves) := by
  refine Machine.Reachable.foldl (M := runMachine Tid E w) ?_ (.init ?_) moves
  · exact fun _ _ => ⟨rfl, rfl⟩
  · exact ⟨rfl, rfl⟩

/-- One of two workers fails, and the master learns why. -/
theorem runs_coordinated_after_failure :
    ∃ p : Sync Bool String 32 × RunRecord Bool String, p.2.answers = [.error (some "violated")] ∧
      Coordinates p.1 p.2 := by
  have hcard : Fintype.card Bool < 2 ^ 32 := by decide
  refine ⟨runSchedule 32 ([.master true, .worker true none, .worker true none,
    .worker false none, .worker false none, .worker false none, .worker false none,
    .worker true none, .worker true (some "violated"), .worker false none, .worker true none,
    .worker true none, .worker false none, .worker true none, .worker true none, .worker true none,
    .worker true none, .worker true none, .master true, .master true, .master true]), ?_,
    runs_coordinated hcard (runSchedule_reachable _)⟩
  decide

end TransactionalMemory.Grading
