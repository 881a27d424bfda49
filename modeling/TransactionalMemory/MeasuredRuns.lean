import TransactionalMemory.Model.Measure
import TransactionalMemory.RunSynchronisation

/-!
# What the measuring program measures

The calls that the master and the workers of `measure` make are calls that `Sync` coordinates, for
every workload. So the workers are never in two different runs, the master learns the errors of a
run when everyone has ended it, and it returns no error exactly after all runs have ended without
one.
-/

namespace TransactionalMemory.Grading

open Concurrency

variable {π δ β : Type} {B : Blocks π δ β} {Tid γ τ : Type} [DecidableEq Tid] {w : Nat}

/-! ### One call of a worker -/

section Steps

variable {s : Sync Tid String w} {tid : Tid} {error : Option String} {log : WorkerLog String}

def WorkerPoint.notifies : WorkerPoint String → Bool
  | .storingError _ | .storingAbort | .counting | .clearing | .closing | .settling _ | .raising
  | .polling => true
  | _ => false

theorem workerStep_of_ne {t : Tid} (ht : t ≠ tid) :
    (s.workerStep tid error).worker t = s.worker t := by
  cases hpoint : s.worker tid <;> simp only [Sync.workerStep, hpoint] <;> (try split) <;>
    (try split) <;> simp [Sync.goto, Function.update_of_ne ht]

theorem workerStep_master : (s.workerStep tid error).master = s.master := by
  cases hpoint : s.worker tid <;> simp only [Sync.workerStep, hpoint] <;> (try split) <;>
    (try split) <;> rfl

theorem next_of_not_running (log : WorkerLog String) (error : Option String)
    (h : s.worker tid ≠ .running) :
    (log.next s tid error).passed = log.passed ∧
      (log.next s tid error).waits =
        log.waits + if (s.workerStep tid error).worker tid = .running then 1 else 0 := by
  cases hpoint : s.worker tid <;>
    simp only [WorkerLog.next, Sync.workerStep, hpoint, Sync.goto]
  case running => exact (h hpoint).elim
  case polling => (repeat' split) <;> simp_all
  case arriving => (repeat' split) <;> simp_all
  case spinning => (repeat' split) <;> simp_all
  case counting => (repeat' split) <;> simp_all
  all_goals simp

theorem next_of_running (log : WorkerLog String) (error : Option String)
    (h : s.worker tid = .running) :
    (log.next s tid error).passed = log.passed ++ [error] ∧
      (log.next s tid error).waits = log.waits ∧
        ((s.workerStep tid error).worker tid).notifies = true := by
  cases error <;> simp [WorkerLog.next, Sync.workerStep, h, Sync.goto, WorkerPoint.notifies]

theorem notifies_step (error : Option String) (h : (s.worker tid).notifies = true)
    (hpoint : s.worker tid ≠ .polling) : ((s.workerStep tid error).worker tid).notifies = true := by
  cases ht : s.worker tid
  case polling => exact (hpoint ht).elim
  case arriving | resetting | releasing | spinning | running | quit =>
    rw [ht] at h
    cases h
  all_goals
    simp only [Sync.workerStep, ht, Sync.goto]
    (repeat' split) <;> simp [WorkerPoint.notifies]

end Steps

/-! ### What has been called, and where everyone is -/

/-- The calls of a worker, and its point in `Sync`, where it is in its function. -/
def Worker.Follows (point : WorkerPoint String) (log : WorkerLog String) : Worker τ → Prop
  | .waiting j => log.waits = j ∧ log.passed.length = j ∧ point ≠ .running ∧ point ≠ .quit
  | .busy j _ => log.waits = j + 1 ∧ log.passed.length = j ∧ point = .running
  | .thrown unexpected =>
      unexpected = false ∧ log.waits = log.passed.length + 1 ∧ point = .running
  | .leaving => log.waits = log.passed.length ∧ point.notifies = true
  | .returned _ => point = .polling ∨ point = .quit

def Answers (runs : Nat) (s : Sync Tid String w) (r : RunRecord Tid String) :
    Option (Option String) → Prop
  | none => r.answers.length = runs
  | some msg => r.answers.length = runs + 1 ∧ r.answers[runs]? = some (.error msg) ∧
      (s.master = .ready ∨ s.master = .joined)

structure MasterFollows (nbrepeats runs : Nat) (error : Option (Option String))
    (s : Sync Tid String w) (r : RunRecord Tid String) : Prop where
  notifies : r.notifies ≤ nbrepeats + 2
  succeeded : ∀ j < runs, r.answers[j]? = some .runtime
  answers : Answers runs s r error
  joined : s.master = .joined → goesOn nbrepeats runs error = false

variable [Fintype Tid]

structure Recorded (nbrepeats : Nat) (own : Option Tid → Local τ) (log : Tid → List (Option String))
    (s : Sync Tid String w) (r : RunRecord Tid String) : Prop where
  stage : ∃ stage k, InStage stage k s r
  log : ∀ t, log t = (r.worker t).passed
  worker : ∀ t, ∃ script, own (some t) = .worker script ∧
    script.Follows (s.worker t) (r.worker t)
  master : ∃ runs error, own none = .master runs error ∧ MasterFollows nbrepeats runs error s r

section Recorded

variable {nbrepeats : Nat} {own : Option Tid → Local τ} {log : Tid → List (Option String)}
  {s : Sync Tid String w} {r : RunRecord Tid String} {tid : Tid} {script' : Worker τ}
  {error : Option String}

theorem Recorded.move (script' : Worker τ) (h : Recorded nbrepeats own log s r)
    (hfollows : script'.Follows (s.worker tid) (r.worker tid)) :
    Recorded nbrepeats (Function.update own (some tid) (.worker script')) log s r where
  stage := h.stage
  log := h.log
  worker t := by
    by_cases ht : t = tid
    · subst ht
      exact ⟨script', Function.update_self .., hfollows⟩
    · rw [Function.update_of_ne (by simpa using ht)]
      exact h.worker t
  master := by
    rw [Function.update_of_ne (by simp)]
    exact h.master

theorem Recorded.workerStep (hw : Fintype.card Tid < 2 ^ w) (h : Recorded nbrepeats own log s r)
    (error : Option String)
    (hfollows : script'.Follows ((s.workerStep tid error).worker tid)
      ((r.worker tid).next s tid error)) :
    Recorded nbrepeats (Function.update own (some tid) (.worker script'))
      (Function.update log tid ((r.worker tid).next s tid error).passed) (s.workerStep tid error)
      (r.write tid ((r.worker tid).next s tid error)) where
  stage := by
    obtain ⟨stage, k, hstage⟩ := h.stage
    obtain ⟨stage', hstage'⟩ := hstage.workerStep hw
    exact ⟨stage', k, hstage'⟩
  log t := by
    by_cases ht : t = tid
    · subst ht
      simp only [RunRecord.write, Function.update_self]
    · simp only [RunRecord.write, Function.update_of_ne ht]
      exact h.log t
  worker t := by
    by_cases ht : t = tid
    · subst ht
      refine ⟨script', Function.update_self .., ?_⟩
      simpa only [RunRecord.write, Function.update_self] using hfollows
    · rw [Function.update_of_ne (by simpa using ht), workerStep_of_ne ht]
      simpa only [RunRecord.write, Function.update_of_ne ht] using h.worker t
  master := by
    rw [Function.update_of_ne (by simp)]
    obtain ⟨runs, error', hmaster, hnotifies, hsucceeded, hanswers, hjoined⟩ := h.master
    refine ⟨runs, error', hmaster, hnotifies, hsucceeded, ?_, ?_⟩
    · cases error' with
      | none => exact hanswers
      | some msg => exact ⟨hanswers.1, hanswers.2.1, by rw [workerStep_master]; exact hanswers.2.2⟩
    · rwa [workerStep_master]

theorem Recorded.quietStep (hw : Fintype.card Tid < 2 ^ w) (h : Recorded nbrepeats own log s r)
    (error : Option String)
    (hpoint : s.worker tid ≠ .running)
    (hfollows : script'.Follows ((s.workerStep tid error).worker tid)
      ((r.worker tid).next s tid error)) :
    Recorded nbrepeats (Function.update own (some tid) (.worker script')) log
      (s.workerStep tid error) (r.write tid ((r.worker tid).next s tid error)) := by
  have hstep := h.workerStep hw error hfollows
  rwa [(next_of_not_running _ _ hpoint).1, ← h.log tid, Function.update_eq_self] at hstep

omit [DecidableEq Tid] in
theorem InStage.notifies_ready {stage : Stage Tid String} {k : Nat} (h : InStage stage k s r)
    (hmaster : s.master = .ready) : r.notifies = r.answers.length := by
  have hstage := h.master
  rw [hmaster] at hstage
  rw [h.answers, h.notifies]
  cases stage <;> first | rfl | cases hstage

theorem Recorded.masterStep [Nonempty Tid] {runs : Nat} {error : Option (Option String)}
    (h : Recorded nbrepeats own log s r) (hown : own none = .master runs error) :
    Recorded nbrepeats
      (Function.update own none (.master (answered s runs error).1 (answered s runs error).2)) log
      (s.masterStep (goesOn nbrepeats runs error))
      (recordMaster s (goesOn nbrepeats runs error) r) := by
  obtain ⟨stage, k, hstage⟩ := h.stage
  obtain ⟨runs', error', hmaster, hfollows⟩ := h.master
  obtain ⟨rfl, rfl⟩ : runs' = runs ∧ error' = error := by
    rw [hown] at hmaster
    cases hmaster
    exact ⟨rfl, rfl⟩
  obtain ⟨stage', k', hstage'⟩ : ∃ stage' k', InStage stage' k'
      (s.masterStep (goesOn nbrepeats runs' error'))
      (recordMaster s (goesOn nbrepeats runs' error') r) := hstage.masterStep
  obtain ⟨hnotifies, hsucceeded, hanswers, hjoined⟩ := hfollows
  refine ⟨⟨stage', k', hstage'⟩, ?_, ?_, _, _, Function.update_self .., ?_⟩
  · intro t
    rw [h.log t]
    cases hpoint : s.master <;> simp only [recordMaster, hpoint] <;> (try split) <;> rfl
  · intro t
    rw [Function.update_of_ne (by simp)]
    obtain ⟨script, hscript, hfollows⟩ := h.worker t
    refine ⟨script, hscript, ?_⟩
    have hworker : (s.masterStep (goesOn nbrepeats runs' error')).worker = s.worker := by
      cases hpoint : s.master <;> simp only [Sync.masterStep, hpoint] <;> (try split) <;> rfl
    have hlog : (recordMaster s (goesOn nbrepeats runs' error') r).worker = r.worker := by
      cases hpoint : s.master <;> simp only [recordMaster, hpoint] <;> (try split) <;> rfl
    rwa [hworker, hlog]
  · have hnone : s.master ≠ .ready → s.master ≠ .joined → error' = none := by
      intro hready hnotJoined
      cases error' with
      | none => rfl
      | some msg => exact (hanswers.2.2.elim hready hnotJoined).elim
    cases hpoint : s.master with
    | ready =>
        have hready := hstage.notifies_ready hpoint
        cases hagain : goesOn nbrepeats runs' error' with
        | true =>
            have hagain' := hagain
            simp only [goesOn, Bool.and_eq_true, Option.isNone_iff_eq_none,
              decide_eq_true_eq] at hagain'
            obtain ⟨rfl, hlt⟩ := hagain'
            have hlength : r.answers.length = runs' := hanswers
            simp only [Sync.masterStep, recordMaster, answered, hpoint, if_true]
            exact ⟨by simp only; omega, hsucceeded, hanswers, by rintro ⟨⟩⟩
        | false =>
            simp only [Sync.masterStep, recordMaster, answered, hpoint, Bool.false_eq_true,
              if_false]
            refine ⟨hnotifies, hsucceeded, ?_, fun _ => hagain⟩
            cases error' with
            | none => exact hanswers
            | some msg => exact ⟨hanswers.1, hanswers.2.1, .inr rfl⟩
    | waiting =>
        obtain rfl := hnone (by simp [hpoint]) (by simp [hpoint])
        simp only [Sync.masterStep, recordMaster, answered, hpoint]
        refine ⟨hnotifies, hsucceeded, hanswers, fun hmaster => ?_⟩
        split at hmaster
        · cases hmaster
        · rw [hpoint] at hmaster
          cases hmaster
    | loading =>
        obtain rfl := hnone (by simp [hpoint]) (by simp [hpoint])
        have hlength : r.answers.length = runs' := hanswers
        simp only [Sync.masterStep, recordMaster, answered, hpoint]
        by_cases hdone : s.status = .done
        · simp only [hdone, if_true]
          refine ⟨hnotifies, fun j hj => ?_, ?_, by rintro ⟨⟩⟩
          · rcases Nat.lt_succ_iff_lt_or_eq.mp hj with hj | rfl
            · rw [List.getElem?_append_left (by omega)]
              exact hsucceeded j hj
            · rw [← hlength, List.getElem?_concat_length]
          · simp [Answers, hlength]
        · simp only [if_neg hdone]
          refine ⟨hnotifies, hsucceeded, hanswers, fun hmaster => ?_⟩
          split at hmaster <;> cases hmaster
    | loadingError =>
        obtain rfl := hnone (by simp [hpoint]) (by simp [hpoint])
        have hlength : r.answers.length = runs' := hanswers
        simp only [Sync.masterStep, recordMaster, answered, hpoint]
        refine ⟨hnotifies, fun j hj => ?_, ⟨by simp [hlength], ?_, .inl rfl⟩, by rintro ⟨⟩⟩
        · rw [List.getElem?_append_left (by omega)]
          exact hsucceeded j hj
        · rw [← hlength, List.getElem?_concat_length]
    | unreachable =>
        simp only [Sync.masterStep, recordMaster, answered, hpoint]
        exact ⟨hnotifies, hsucceeded, hanswers, hjoined⟩
    | joined =>
        simp only [Sync.masterStep, recordMaster, answered, hpoint]
        exact ⟨hnotifies, hsucceeded, hanswers, hjoined⟩

end Recorded

/-! ### Every move -/

section Moves

variable {W : Workload B Tid γ τ} {nbrepeats : Nat} {own : Option Tid → Local τ}
  {log : Tid → List (Option String)} {s s' : Measuring Tid γ w} {r : RunRecord Tid String}
  {tid : Tid} {script script' : Worker τ}

def passedAfter (W : Workload B Tid γ τ) (tid : Tid) (script : Worker τ)
    (log : Tid → List (Option String)) : Tid → List (Option String) :=
  match script with
  | .busy _ x =>
      match W.ended x with
      | some (.returned error) => Function.update log tid (log tid ++ [error])
      | _ => log
  | .thrown _ => Function.update log tid (log tid ++ [some internalError])
  | _ => log

/-- `worker_wait` does not return once too often. -/
theorem Recorded.expected {j : Nat} (hw : Fintype.card Tid < 2 ^ w)
    (h : Recorded nbrepeats own log s.sync r) (hwaits : (r.worker tid).waits = j)
    (hpoint : s.sync.worker tid ≠ .running)
    (hrunning : (s.sync.workerStep tid none).worker tid = .running) : j < nbrepeats + 2 := by
  obtain ⟨stage, k, hstage⟩ := h.stage
  obtain ⟨stage', hstage'⟩ : ∃ stage', InStage stage' k (s.sync.workerStep tid none)
      (r.write tid ((r.worker tid).next s.sync tid none)) := hstage.workerStep hw
  obtain ⟨-, -, -, hnotifies, -⟩ := h.master
  have hnext := (next_of_not_running (r.worker tid) none hpoint).2
  rw [if_pos hrunning, hwaits] at hnext
  have hnotified := hstage'.coordinates.notified tid
  simp only [RunRecord.write, Function.update_self, hnext] at hnotified
  omega

theorem Recorded.workerMove (hw : Fintype.card Tid < 2 ^ w)
    (h : Recorded nbrepeats own log s.sync r) (hown : own (some tid) = .worker script)
    (hmove : WorkerMove W nbrepeats tid s script s' script') :
    ∃ r', Recorded nbrepeats (Function.update own (some tid) (.worker script'))
      (passedAfter W tid script log) s'.sync r' := by
  obtain ⟨script₀, hscript, hfollows⟩ := h.worker tid
  obtain rfl : script₀ = script := by
    rw [hown] at hscript
    cases hscript
    rfl
  cases hmove with
  | wait hpoint hquit =>
      obtain ⟨hwaits, hpassed, hnotRunning, -⟩ := hfollows
      obtain ⟨hpassed', hwaits'⟩ := next_of_not_running (r.worker tid) none hnotRunning
      rw [if_neg hpoint] at hwaits'
      refine ⟨_, h.quietStep hw none hnotRunning ⟨?_, ?_, hpoint, hquit⟩⟩
      · rw [hwaits', hwaits]
        rfl
      · rw [hpassed', hpassed]
  | start hpoint hrun =>
      obtain ⟨hwaits, hpassed, hnotRunning, -⟩ := hfollows
      obtain ⟨hpassed', hwaits'⟩ := next_of_not_running (r.worker tid) none hnotRunning
      rw [if_pos hpoint] at hwaits'
      refine ⟨_, h.quietStep hw none hnotRunning ⟨?_, ?_, hpoint⟩⟩
      · rw [hwaits', hwaits]
      · rw [hpassed', hpassed]
  | unexpected hpoint hrun =>
      obtain ⟨hwaits, -, hnotRunning, -⟩ := hfollows
      have hlt := h.expected hw hwaits hnotRunning hpoint
      simp only [task] at hrun
      split at hrun
      · cases hrun
      · split at hrun
        · cases hrun
        · split at hrun
          · cases hrun
          · omega
  | quit hquit =>
      obtain ⟨-, -, hnotRunning, -⟩ := hfollows
      exact ⟨_, h.quietStep hw none hnotRunning (.inr hquit)⟩
  | @work j x x' g hended hwork =>
      refine ⟨r, ?_⟩
      simp only [passedAfter, hended]
      exact h.move (.busy j x') hfollows
  | @notify j x error hended =>
      obtain ⟨hwaits, hpassed, hrunning⟩ := hfollows
      obtain ⟨hpassed', hwaits', hnotifies⟩ := next_of_running (r.worker tid) error
        hrunning
      refine ⟨r.write tid ((r.worker tid).next s.sync tid error), ?_⟩
      simp only [passedAfter, hended, h.log tid, ← hpassed']
      refine h.workerStep hw error ⟨hwaits'.trans hwaits, ?_, ?_, ?_⟩
      · rw [hpassed', List.length_append, hpassed]
        rfl
      · intro heq
        rw [heq] at hnotifies
        cases hnotifies
      · intro heq
        rw [heq] at hnotifies
        cases hnotifies
  | @throw j x hended =>
      obtain ⟨hwaits, hpassed, hrunning⟩ := hfollows
      refine ⟨r, ?_⟩
      simp only [passedAfter, hended]
      exact h.move (.thrown false) ⟨rfl, by rw [hwaits, hpassed], hrunning⟩
  | @handle unexpected =>
      obtain ⟨-, hwaits, hrunning⟩ := hfollows
      obtain ⟨hpassed', hwaits', hnotifies⟩ := next_of_running (r.worker tid)
        (some internalError) hrunning
      refine ⟨r.write tid ((r.worker tid).next s.sync tid (some internalError)), ?_⟩
      simp only [passedAfter, h.log tid, ← hpassed']
      refine h.workerStep hw (some internalError) ⟨?_, hnotifies⟩
      rw [hwaits', hwaits, hpassed', List.length_append]
      rfl
  | leave hpoint =>
      obtain ⟨hwaits, hnotifies⟩ := hfollows
      have hnotRunning : s.sync.worker tid ≠ .running := by
        intro heq
        rw [heq] at hnotifies
        cases hnotifies
      have hnotifies' := notifies_step none hnotifies hpoint
      obtain ⟨hpassed', hwaits'⟩ := next_of_not_running (r.worker tid) none hnotRunning
      rw [if_neg (by intro heq; rw [heq] at hnotifies'; cases hnotifies')] at hwaits'
      refine ⟨_, h.quietStep hw none hnotRunning ⟨?_, hnotifies'⟩⟩
      rw [hwaits', hpassed', hwaits]
      rfl
  | exit hpoint => exact ⟨r, h.move (.returned true) (.inl hpoint)⟩

end Moves

/-! ### Every run -/

section Runs

variable {W : Workload B Tid γ τ} {nbrepeats : Nat}

def recordPassed (W : Workload B Tid γ τ) (a : Atomic (Option Tid) (Measuring Tid γ w) (Local τ) δ)
    (tid : Option Tid) (log : Tid → List (Option String)) : Tid → List (Option String) :=
  match tid with
  | none => log
  | some tid =>
      match a.own (some tid) with
      | .worker script => passedAfter W tid script log
      | .master _ _ => log

omit [DecidableEq Tid] [Fintype Tid] in
theorem measureBlock_eq_some {tid : Option Tid} {own : Local τ} {isRo : Bool} {p : π}
    (h : measureBlock W tid own = some (isRo, p)) : ∃ t j x, tid = some t ∧
      own = .worker (.busy j x) ∧ W.ended x = none ∧ W.block t x = some (isRo, p) := by
  unfold measureBlock at h
  split at h
  · split at h
    · rename_i hended
      exact ⟨_, _, _, rfl, rfl, Option.isNone_iff_eq_none.mp hended, h⟩
    · cases h
  · cases h

omit [DecidableEq Tid] in
theorem recorded_initial [Nonempty Tid] {own : Option Tid → Local τ} {s : Sync Tid String w}
    (hsync : s = Sync.initial Tid String w) (hmaster : own none = .master 0 none)
    (hworkers : ∀ tid, own (some tid) = .worker (.waiting 0)) :
    Recorded nbrepeats own (fun _ => []) s RunRecord.initial := by
  subst hsync
  refine ⟨⟨_, _, inStage_initial⟩, fun _ => rfl, fun t => ?_, 0, none, hmaster, Nat.zero_le _,
    by rintro j ⟨⟩, rfl, ?_⟩
  · refine ⟨_, hworkers t, rfl, rfl, ?_, ?_⟩ <;> simp [Sync.initial]
  · simp [Sync.initial]

theorem recorded_reachable [Nonempty Tid] (hw : Fintype.card Tid < 2 ^ w) {d : δ}
    {p : Atomic (Option Tid) (Measuring Tid γ w) (Local τ) δ × (Tid → List (Option String))}
    (h : (((measure W nbrepeats w).atomic d).observe (fun _ => []) (recordPassed W)).Reachable p) :
    ∃ r, Recorded nbrepeats p.1.own p.2 p.1.shared.sync r := by
  refine h.invariant (P := fun p => ∃ r, Recorded nbrepeats p.1.own p.2 p.1.shared.sync r) ?_ ?_
  · rintro ⟨a, log⟩ ⟨⟨⟨hsync, -, hmaster, hworkers⟩, -⟩, hlog⟩
    obtain rfl : log = fun _ => [] := hlog
    exact ⟨_, recorded_initial hsync hmaster hworkers⟩
  · rintro ⟨a, log⟩ tid ⟨a', log'⟩ - ⟨r, hr⟩ ⟨hstep, hlog⟩
    obtain rfl : log' = recordPassed W a tid log := hlog
    cases hstep with
    | @move g k hmove =>
        have hmove : MeasureMove W nbrepeats tid (a.shared, a.own tid) (g, k) := hmove
        generalize hown : a.own tid = own at hmove
        cases hmove with
        | master => exact ⟨_, hr.masterStep hown⟩
        | worker hworker =>
            simp only [recordPassed, hown]
            exact hr.workerMove hw hown hworker
    | @block isRo p p' d' b hblock hruns hresult =>
        obtain ⟨t, j, x, rfl, hown, hended, -⟩ := measureBlock_eq_some hblock
        have hown : a.own (some t) = .worker (.busy j x) := hown
        obtain ⟨script, hscript, hfollows⟩ := hr.worker t
        obtain rfl : script = .busy j x := by
          rw [hown] at hscript
          cases hscript
          rfl
        refine ⟨r, ?_⟩
        simp only [recordPassed, measure, measureReturns, hown, passedAfter, hended]
        exact hr.move (.busy j (W.returns t x b)) hfollows

/-- What the measurement tells. -/
structure Measures (nbrepeats : Nat) (s : Measuring Tid γ w) (own : Option Tid → Local τ)
    (log : Tid → List (Option String)) : Prop where
  /-- Workers that run anything are in the same run, and everyone has ended the one before. -/
  together : ∀ t u j x j' y, own (some t) = .worker (.busy j x) →
    own (some u) = .worker (.busy j' y) → j = j'
  finished : ∀ t u j x, own (some t) = .worker (.busy j x) → j ≤ (log u).length
  /-- `Exception::Unreachable` is not thrown, neither by the master nor by a worker. -/
  expected : s.sync.master ≠ .unreachable
  unthrown : ∀ t, own (some t) ≠ .worker (.thrown true)
  succeeded : ∀ runs error, own none = .master runs error →
    ∀ j < runs, ∀ t, (log t)[j]? = some none
  failed : ∀ runs msg, own none = .master runs (some msg) →
    ∃ t e, msg = some e ∧ (log t)[runs]? = some (some e)
  /-- `measure` returns no error after all runs only. -/
  complete : ∀ runs, own none = .master runs none → s.sync.master = .joined → runs = nbrepeats + 2

end Runs

section Phases

variable {nbrepeats : Nat} {own : Option Tid → Local τ} {log : Tid → List (Option String)}
  {s : Measuring Tid γ w} {r : RunRecord Tid String}

omit [DecidableEq Tid] in
theorem InStage.runs {E : Type} {s : Sync Tid E w} {r : RunRecord Tid E} {stage : Stage Tid E}
    {k : Nat} (h : InStage stage k s r) (t : Tid) :
    (r.worker t).finished ≤ (r.worker t).passed.length ∧
      ((r.worker t).passed.length = k ∨ (r.worker t).passed.length = k + 1) ∧
      (s.worker t = .running → (r.worker t).passed.length = k) := by
  have hplaces := h.places t
  have hallows := h.worker t
  have hcounts : (r.worker t).finished ≤ (r.worker t).passed.length ∧
      ((r.worker t).passed.length = k ∨ (r.worker t).passed.length = k + 1) := by
    generalize s.worker t = point at hallows
    cases stage <;> cases point <;>
      grind [Stage.Allows, WorkerLog.Before, WorkerLog.Running, WorkerLog.Notifying]
  refine ⟨hcounts.1, hcounts.2, fun hrunning => ?_⟩
  rw [hrunning] at hplaces
  exact hplaces.2.2.1

omit [DecidableEq Tid] in
theorem Recorded.busy {t : Tid} {j : Nat} {x : τ} (h : Recorded nbrepeats own log s.sync r)
    (hown : own (some t) = .worker (.busy j x)) :
    s.sync.worker t = .running ∧ (r.worker t).passed.length = j := by
  obtain ⟨script, hscript, hfollows⟩ := h.worker t
  rw [hown] at hscript
  cases hscript
  exact ⟨hfollows.2.2, hfollows.2.1⟩

omit [DecidableEq Tid] in
theorem Recorded.measures [Nonempty Tid] (h : Recorded nbrepeats own log s.sync r) :
    Measures nbrepeats s own log := by
  obtain ⟨stage, k, hstage⟩ := h.stage
  have hrunning : ∀ t j x, own (some t) = .worker (.busy j x) → j = k := by
    intro t j x hown
    obtain ⟨hpoint, hpassed⟩ := h.busy hown
    exact hpassed.symm.trans ((hstage.runs t).2.2 hpoint)
  have hanswered := hstage.answered
  obtain ⟨runs', error', hmaster, hnotifies, hsucceeded, hanswers, hjoined⟩ := h.master
  refine ⟨fun t u j x j' y ht hu => ?_, fun t u j x ht => ?_, hstage.coordinates.expected,
    fun t ht => ?_, fun runs error hown j hj t => ?_, fun runs msg hown => ?_,
    fun runs hown hdone => ?_⟩
  · rw [hrunning t j x ht, hrunning u j' y hu]
  · rw [hrunning t j x ht, h.log u]
    rcases (hstage.runs u).2.1 with hk | hk <;> omega
  · obtain ⟨script, hscript, hfollows⟩ := h.worker t
    rw [ht] at hscript
    cases hscript
    cases hfollows.1
  · rw [hmaster] at hown
    cases hown
    rw [h.log t]
    exact hanswered.success j (hsucceeded j hj) t
  · rw [hmaster] at hown
    cases hown
    obtain ⟨t, e, hmsg, hpassed⟩ := hanswered.failure runs' msg hanswers.2.1
    exact ⟨t, e, hmsg, by rw [h.log t]; exact hpassed⟩
  · rw [hmaster] at hown
    cases hown
    have hstop := hjoined hdone
    simp only [goesOn, Option.isNone_none, Bool.true_and, decide_eq_false_iff_not] at hstop
    have hlength : r.answers.length = runs' := hanswers
    have hanswerLength := hstage.answers
    have hstageNotifies := hstage.notifies
    omega

end Phases

/-- **The measurement is sound**, whatever the workload does: nobody is in two runs at once, the
error that `measure` returns is one that a worker has reported, and it returns none only after all
runs of all workers have ended without one. -/
theorem measure_sound [Nonempty Tid] (hw : Fintype.card Tid < 2 ^ w) {W : Workload B Tid γ τ}
    {nbrepeats : Nat} {d : δ}
    {p : Atomic (Option Tid) (Measuring Tid γ w) (Local τ) δ × (Tid → List (Option String))}
    (h : (((measure W nbrepeats w).atomic d).observe (fun _ => []) (recordPassed W)).Reachable p) :
    Measures nbrepeats p.1.shared p.1.own p.2 := by
  obtain ⟨r, hr⟩ := recorded_reachable hw h
  exact hr.measures

/-! ### Following a schedule -/

section Schedules

variable {W : Workload B Tid γ τ} {nbrepeats : Nat} {s : Measuring Tid γ w}

/-- The next move of a worker, where it is not in the middle of a run. -/
def Worker.next (W : Workload B Tid γ τ) (nbrepeats : Nat) (s : Measuring Tid γ w) (tid : Tid) :
    Worker τ → Option (Measuring Tid γ w × Worker τ)
  | .waiting j =>
      match (s.sync.workerStep tid none).worker tid with
      | .running => (task nbrepeats j).map fun run => (s.worker tid none, .busy j (W.call tid run))
      | .quit => some (s.worker tid none, .returned false)
      | _ => some (s.worker tid none, .waiting j)
  | .busy j x =>
      match W.ended x with
      | some (.returned error) => some (s.worker tid error, .waiting (j + 1))
      | some .threw => some (s, .thrown false)
      | none => none
  | .thrown _ => some (s.worker tid (some internalError), .leaving)
  | .leaving =>
      match s.sync.worker tid with
      | .polling => some (s, .returned true)
      | _ => some (s.worker tid none, .leaving)
  | .returned _ => none

omit [Fintype Tid] in
theorem WorkerMove.of_next {tid : Tid} {script script' : Worker τ} {s' : Measuring Tid γ w}
    (h : script.next W nbrepeats s tid = some (s', script')) :
    WorkerMove W nbrepeats tid s script s' script' := by
  cases script with
  | waiting j =>
      simp only [Worker.next] at h
      split at h
      · rename_i hpoint
        obtain ⟨run, hrun, heq⟩ := Option.map_eq_some_iff.mp h
        cases heq
        exact .start hpoint hrun
      · rename_i hpoint
        cases h
        exact .quit hpoint
      · rename_i hrunning hquit
        cases h
        exact .wait hrunning hquit
  | busy j x =>
      simp only [Worker.next] at h
      split at h
      · rename_i hended
        cases h
        exact .notify hended
      · rename_i hended
        cases h
        exact .throw hended
      · cases h
  | thrown unexpected =>
      cases h
      exact .handle
  | leaving =>
      simp only [Worker.next] at h
      split at h
      · rename_i hpoint
        cases h
        exact .exit hpoint
      · rename_i hpoint
        cases h
        exact .leave hpoint
  | returned => cases h

def Local.next (W : Workload B Tid γ τ) (nbrepeats : Nat) (s : Measuring Tid γ w) :
    Option Tid → Local τ → Option (Measuring Tid γ w × Local τ)
  | none, .master runs error => some (s.master (goesOn nbrepeats runs error),
      .master (answered s.sync runs error).1 (answered s.sync runs error).2)
  | some tid, .worker script =>
      (script.next W nbrepeats s tid).map fun x => (x.1, .worker x.2)
  | _, _ => none

omit [Fintype Tid] in
theorem MeasureMove.of_next {tid : Option Tid} {own own' : Local τ} {s' : Measuring Tid γ w}
    (h : own.next W nbrepeats s tid = some (s', own')) :
    MeasureMove W nbrepeats tid (s, own) (s', own') := by
  match tid, own with
  | none, .master runs error =>
      cases h
      exact .master
  | some tid, .worker script =>
      obtain ⟨⟨s'', script'⟩, hnext, heq⟩ := Option.map_eq_some_iff.mp h
      cases heq
      exact .worker (.of_next hnext)
  | none, .worker _ => cases h
  | some _, .master _ _ => cases h

end Schedules

/-! ### A run that fails -/

section Failing

def idle : Blocks Unit Unit Unit where
  step _ _ := False
  result _ := some ()
  halted h := h.elim

def failing : Workload idle Unit Unit Ending where
  created _ := True
  call _ run := .returned (if run = .init then none else some "failed")
  move _ _ _ := False
  block _ _ := none
  returns _ x _ := x
  ended := some
  quiet := by rintro _ _ _ ⟨⟩

abbrev FailingState : Type := Atomic (Option Unit) (Measuring Unit Unit 32) (Local Ending) Unit

def failingStart : FailingState where
  shared := ⟨Sync.initial Unit String 32, ()⟩
  own
    | none => .master 0 none
    | some _ => .worker (.waiting 0)
  data := ()

def failingMove (a : FailingState) (tid : Option Unit) : Option (Option Unit × FailingState) :=
  ((a.own tid).next failing 1 a.shared tid).map fun x =>
    (tid, { a with shared := x.1, own := Function.update a.own tid x.2 })

def failingRun : Option (FailingState × (Unit → List (Option String))) :=
  Machine.drive failingMove (fun _ _ => true) (recordPassed failing) (failingStart, fun _ => [])
    ([none] ++ List.replicate 10 (some ()) ++ [none, none, none] ++ List.replicate 12 (some ()) ++
      [none, none, none, none])

theorem failingRun_reachable {p : FailingState × (Unit → List (Option String))}
    (h : failingRun = some p) : (((measure failing 1 32).atomic ()).observe (fun _ => [])
      (recordPassed failing)).Reachable p := by
  have hmove : ∀ a tid l a', failingMove a tid = some (l, a') →
      ((measure failing 1 32).atomic ()).step a l a' := by
    intro a tid l a' h
    obtain ⟨⟨s', own'⟩, hnext, heq⟩ := Option.map_eq_some_iff.mp h
    cases heq
    exact .move (.of_next hnext)
  have hinit : ((((measure failing 1 32).atomic ()).restrict fun _ _ => True).observe (fun _ => [])
      (recordPassed failing)).Reachable (failingStart, fun _ => []) :=
    .init ⟨⟨⟨rfl, trivial, rfl, fun _ => rfl⟩, rfl⟩, rfl⟩
  exact (Machine.Reachable.drive hmove (fun _ _ _ => trivial) hinit h).of_restrict_observe

theorem measure_sound_after_failure : ∃ p : FailingState × (Unit → List (Option String)),
    p.1.own none = .master 1 (some (some "failed")) ∧ p.2 () = [none, some "failed"] ∧
      p.1.shared.sync.master = .joined ∧ Measures 1 p.1.shared p.1.own p.2 := by
  obtain ⟨p, hp⟩ : ∃ p, failingRun = some p := Option.isSome_iff_exists.mp rfl
  have hmaster : failingRun.map (fun p => (p.1.own none, p.2 (), p.1.shared.sync.master)) =
      some (.master 1 (some (some "failed")), [none, some "failed"], .joined) := rfl
  rw [hp] at hmaster
  simp only [Option.map_some, Option.some.injEq, Prod.mk.injEq] at hmaster
  exact ⟨p, hmaster.1, hmaster.2.1, hmaster.2.2,
    measure_sound (by simp) (failingRun_reachable hp)⟩

end Failing

end TransactionalMemory.Grading
