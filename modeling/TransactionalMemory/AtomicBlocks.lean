import TransactionalMemory.Model.AtomicBlock

/-!
# What atomic blocks commit

The destructor of `Transaction` commits whenever no call has reported an abort, also when the
closure has thrown. So a block is all or nothing exactly for the closures that throw only before
they have written, and that leave `TransactionRetry` to the library.
-/

namespace TransactionalMemory.Grading

variable {A V X β : Type}

def LibraryCall.isFinish : LibraryCall A V → Bool
  | .finish => true
  | _ => false

def finishCount (calls : List (LibraryCall A V × CallAnswer)) : Nat :=
  calls.countP fun call => call.1.isFinish

/-- No call comes after one that has reported an abort. -/
def StopsAtAbort (calls : List (LibraryCall A V × CallAnswer)) : Prop :=
  ∀ call ∈ calls.dropLast, call.2 ≠ .abort

/-- A write that the library has accepted. -/
def Wrote (calls : List (LibraryCall A V × CallAnswer)) : Prop :=
  ∃ content target, (LibraryCall.write content target, CallAnswer.ok) ∈ calls

namespace Execution

variable (e : Execution A V X β)

def Committed : Prop := (LibraryCall.finish, CallAnswer.ok) ∈ e.calls

def Aborted : Prop := ∃ call, (call, CallAnswer.abort) ∈ e.calls

/-- The transaction is ended at most once and not used after its abort, and what the closure has
written before it throws is not committed. -/
structure Sound : Prop where
  endsOnce : finishCount e.calls ≤ 1
  stopsAtAbort : StopsAtAbort e.calls
  nothing : ∀ x, e.ending = .error x → x ≠ .retry → e.Committed → ¬ Wrote e.calls

end Execution

/-- All of an execution that the block returns from, and nothing of any other. -/
structure AllOrNothing (block : Block A V X β) : Prop where
  value : ∀ v, block.result = .value v → ∃ earlier last,
    block.executions = earlier ++ [last] ∧ last.ending = .ok v ∧ last.Committed ∧
      ∀ e ∈ earlier, e.Aborted
  sound : ∀ e ∈ block.executions, e.Sound

namespace Closure

variable (func : Closure A V X β) (isRo : Bool) (replies : Nat → Reply A V)

def outcome : Outcome A V X β := func.run replies (.begun isRo) 1

def destroyed : Transaction A V × Bool :=
  (func.outcome isRo replies).tx.destroy (replies (func.outcome isRo replies).calls)

def execution : Execution A V X β :=
  ⟨(func.outcome isRo replies).ending, (func.destroyed isRo replies).1.calls⟩

/-- Another execution follows: `tm_end` refuses, or `TransactionRetry` leaves the closure. -/
def Repeats : Prop :=
  (replies 0).begins = true ∧
    ((∃ v, (func.outcome isRo replies).ending = .ok v) ∧ (func.destroyed isRo replies).2 = true ∨
      (func.outcome isRo replies).ending = .error .retry ∧ (func.destroyed isRo replies).2 = false)

/-- Whatever the library answers, the closure gives up at the first abort, and throws nothing of its
own after a write. -/
structure Tame : Prop where
  stops : ∀ replies, StopsAtAbort (func.outcome isRo replies).tx.calls
  returns : ∀ replies v, (func.outcome isRo replies).ending = .ok v →
    (func.outcome isRo replies).tx.aborted = false
  throws : ∀ replies x, (func.outcome isRo replies).ending = .error x → x ≠ .retry →
    (func.outcome isRo replies).tx.aborted = false → ¬ Wrote (func.outcome isRo replies).tx.calls

end Closure

namespace BlockBody

def Repeats (isRo : Bool) : BlockBody A V X β → List (Nat → Reply A V) → Prop
  | _, [] => True
  | func, replies :: later =>
      (func []).Repeats isRo replies ∧ (func.after replies).Repeats isRo later

/-- Every execution that there can be is tame, and none throws `TransactionRetry` by itself unless
no later one returns. -/
structure Tame (func : BlockBody A V X β) (isRo : Bool) : Prop where
  executions : ∀ earlier, func.Repeats isRo earlier → (func earlier).Tame isRo
  retries : ∀ earlier replies later replies' v, func.Repeats isRo (earlier ++ replies :: later) →
    ((func earlier).outcome isRo replies).ending = .error .retry →
      ((func earlier).outcome isRo replies).tx.aborted = false →
        ((func (earlier ++ replies :: later)).outcome isRo replies').ending ≠ .ok v

end BlockBody

/-! ### Transactions -/

theorem finishCount_append (calls calls' : List (LibraryCall A V × CallAnswer)) :
    finishCount (calls ++ calls') = finishCount calls + finishCount calls' :=
  List.countP_append ..

structure Transaction.Flagged (tx : Transaction A V) : Prop where
  aborted : tx.aborted = true ↔ ∃ call, (call, CallAnswer.abort) ∈ tx.calls
  unfinished : finishCount tx.calls = 0

variable {tx : Transaction A V} {func : Closure A V X β} {isRo : Bool}

namespace Transaction.Flagged

theorem begun (isRo : Bool) : (Transaction.begun isRo : Transaction A V).Flagged where
  aborted := by simp [Transaction.begun]
  unfinished := rfl

theorem log {call : LibraryCall A V} {answer : CallAnswer} (h : tx.Flagged)
    (hcall : call.isFinish = false) (hanswer : answer ≠ .abort) : (tx.log call answer).Flagged where
  aborted := by
    simp only [Transaction.log, List.mem_append, List.mem_singleton, Prod.mk.injEq, h.aborted]
    grind
  unfinished := by
    rw [Transaction.log, finishCount_append, h.unfinished]
    simp [finishCount, hcall]

theorem abort {call : LibraryCall A V} (h : tx.Flagged) (hcall : call.isFinish = false) :
    (tx.abort call).Flagged where
  aborted := by simp [Transaction.abort]
  unfinished := by
    rw [Transaction.abort, finishCount_append, h.unfinished]
    simp [finishCount, hcall]

theorem run (replies : Nat → Reply A V) (h : tx.Flagged) (i : Nat) :
    (func.run replies tx i).tx.Flagged := by
  induction func generalizing tx i with
  | value v => exact h
  | throw e => exact h
  | read source next ih =>
      refine ih _ ?_ _
      unfold Transaction.read
      split
      · exact h.log rfl (by rintro ⟨⟩)
      · exact h.abort rfl
  | write content target next ih =>
      refine ih _ ?_ _
      unfold Transaction.write
      split
      · exact h
      · split
        · exact h.log rfl (by rintro ⟨⟩)
        · exact h.abort rfl
  | alloc size next ih =>
      refine ih _ ?_ _
      unfold Transaction.alloc
      split
      · exact h
      · split
        · exact h.log rfl (by rintro ⟨⟩)
        · exact h.log rfl (by rintro ⟨⟩)
        · exact h.abort rfl
  | free target next ih =>
      refine ih _ ?_ _
      unfold Transaction.free
      split
      · exact h
      · split
        · exact h.log rfl (by rintro ⟨⟩)
        · exact h.abort rfl

end Transaction.Flagged

theorem Closure.flagged (func : Closure A V X β) (isRo : Bool) (replies : Nat → Reply A V) :
    (func.outcome isRo replies).tx.Flagged :=
  (Transaction.Flagged.begun isRo).run replies 1

/-! ### One execution -/

section Executions

variable {replies : Nat → Reply A V}

namespace Closure

variable (func : Closure A V X β) (isRo : Bool) (replies : Nat → Reply A V)

/-- The destructor has nothing to do, commits, or throws. -/
theorem destroyed_cases :
    ((func.outcome isRo replies).tx.aborted = true ∧ (func.destroyed isRo replies).2 = false ∧
      (func.execution isRo replies).calls = (func.outcome isRo replies).tx.calls) ∨
    ((func.outcome isRo replies).tx.aborted = false ∧ (func.destroyed isRo replies).2 = false ∧
      (func.execution isRo replies).calls =
        (func.outcome isRo replies).tx.calls ++ [(.finish, .ok)]) ∨
    ((func.outcome isRo replies).tx.aborted = false ∧ (func.destroyed isRo replies).2 = true ∧
      (func.execution isRo replies).calls =
        (func.outcome isRo replies).tx.calls ++ [(.finish, .abort)]) := by
  simp only [execution, destroyed, Transaction.destroy]
  cases (func.outcome isRo replies).tx.aborted with
  | true => exact .inl ⟨rfl, rfl, rfl⟩
  | false =>
      cases (replies (func.outcome isRo replies).calls).ends with
      | true => exact .inr (.inl ⟨rfl, rfl, rfl⟩)
      | false => exact .inr (.inr ⟨rfl, rfl, rfl⟩)

end Closure

namespace Transaction.Flagged

theorem not_abort (h : tx.Flagged) (haborted : tx.aborted = false) :
    ∀ call ∈ tx.calls, call.2 ≠ .abort := by
  rintro ⟨call, answer⟩ hmem rfl
  have htrue := h.aborted.mpr ⟨call, hmem⟩
  rw [haborted] at htrue
  cases htrue

theorem not_finish (h : tx.Flagged) {answer : CallAnswer} :
    (LibraryCall.finish, answer) ∉ tx.calls := by
  intro hmem
  exact List.countP_eq_zero.mp h.unfinished _ hmem rfl

theorem ended (h : tx.Flagged) (haborted : tx.aborted = false) (answer : CallAnswer) :
    finishCount (tx.calls ++ [(.finish, answer)]) ≤ 1 ∧
      StopsAtAbort (tx.calls ++ [(.finish, answer)]) := by
  constructor
  · rw [finishCount_append, h.unfinished]
    exact Nat.le_of_eq rfl
  · rw [StopsAtAbort, List.dropLast_concat]
    exact h.not_abort haborted

end Transaction.Flagged

theorem wrote_append_finish {calls : List (LibraryCall A V × CallAnswer)} {answer : CallAnswer} :
    Wrote (calls ++ [(.finish, answer)]) ↔ Wrote calls := by
  simp [Wrote]

theorem Closure.Tame.sound (h : func.Tame isRo) (replies : Nat → Reply A V) :
    (func.execution isRo replies).Sound := by
  have hflagged := func.flagged isRo replies
  rcases func.destroyed_cases isRo replies with ⟨haborted, -, hcalls⟩ | ⟨haborted, -, hcalls⟩ |
    ⟨haborted, -, hcalls⟩
  · refine ⟨?_, ?_, fun x _ _ hcommitted => ?_⟩
    · rw [hcalls, hflagged.unfinished]
      exact Nat.zero_le 1
    · rw [hcalls]
      exact h.stops replies
    · rw [Execution.Committed, hcalls] at hcommitted
      exact (hflagged.not_finish hcommitted).elim
  · obtain ⟨honce, hstops⟩ := hflagged.ended haborted .ok
    refine ⟨hcalls ▸ honce, hcalls ▸ hstops, fun x hx hne _ hwrote => ?_⟩
    rw [hcalls, wrote_append_finish] at hwrote
    exact h.throws replies x hx hne haborted hwrote
  · obtain ⟨honce, hstops⟩ := hflagged.ended haborted .abort
    refine ⟨hcalls ▸ honce, hcalls ▸ hstops, fun x _ _ hcommitted => ?_⟩
    rw [Execution.Committed, hcalls, List.mem_append] at hcommitted
    rcases hcommitted with hmem | hmem
    · exact (hflagged.not_finish hmem).elim
    · cases List.mem_singleton.mp hmem

end Executions

/-! ### The loop -/

namespace AllOrNothing

variable {e : Execution A V X β} {rest : Block A V X β}

theorem cons (h : AllOrNothing rest) (hsound : e.Sound)
    (hfirst : e.Aborted ∨ ∀ v, rest.result ≠ .value v) :
    AllOrNothing ⟨e :: rest.executions, rest.result⟩ where
  value v hv := by
    obtain ⟨earlier, last, hexecutions, hending, hcommitted, hearlier⟩ := h.value v hv
    refine ⟨e :: earlier, last, by rw [hexecutions, List.cons_append], hending, hcommitted, ?_⟩
    exact List.forall_mem_cons.mpr ⟨hfirst.resolve_right fun hnever => hnever v hv, hearlier⟩
  sound := List.forall_mem_cons.mpr ⟨hsound, h.sound⟩

theorem tail (h : AllOrNothing ⟨e :: rest.executions, rest.result⟩)
    (hrest : ∀ v, rest.result = .value v → rest.executions ≠ []) : AllOrNothing rest where
  value v hv := by
    obtain ⟨earlier, last, hexecutions, hending, hcommitted, hearlier⟩ := h.value v hv
    cases earlier with
    | nil => exact absurd (List.cons.inj hexecutions).2 (hrest v hv)
    | cons first earlier =>
        exact ⟨earlier, last, (List.cons.inj hexecutions).2, hending, hcommitted,
          fun e he => hearlier e (List.mem_cons_of_mem _ he)⟩
  sound e he := h.sound e (List.mem_cons_of_mem _ he)

/-- The first execution of a block that returns from another one has been aborted. -/
theorem aborted (h : AllOrNothing ⟨e :: rest.executions, rest.result⟩)
    (hrest : ∀ v, rest.result = .value v → rest.executions ≠ []) {v : β}
    (hv : rest.result = .value v) : e.Aborted := by
  obtain ⟨earlier, last, hexecutions, -, -, hearlier⟩ := h.value v hv
  cases earlier with
  | nil => exact absurd (List.cons.inj hexecutions).2 (hrest v hv)
  | cons first earlier =>
      obtain rfl : e = first := (List.cons.inj hexecutions).1
      exact hearlier e List.mem_cons_self

end AllOrNothing

section Loop

variable {body : BlockBody A V X β} {answers : Nat → Nat → Reply A V} {n : Nat}
  {replies : Nat → Reply A V} {v : β}

theorem transactional_succ (hbegins : (answers 0 0).begins = true) :
    transactional isRo body answers (n + 1) =
      let rest := transactional isRo (body.after (answers 0)) (fun j => answers (j + 1)) n
      match ((body []).outcome isRo (answers 0)).ending,
          ((body []).destroyed isRo (answers 0)).2 with
      | .ok v, false => ⟨[(body []).execution isRo (answers 0)], .value v⟩
      | .ok _, true => ⟨(body []).execution isRo (answers 0) :: rest.executions, rest.result⟩
      | .error _, true => ⟨[(body []).execution isRo (answers 0)], .terminated⟩
      | .error .retry, false =>
          ⟨(body []).execution isRo (answers 0) :: rest.executions, rest.result⟩
      | .error e, false => ⟨[(body []).execution isRo (answers 0)], .exception e⟩ := by
  rw [transactional, hbegins]
  rfl

theorem transactional_repeats (h : (body []).Repeats isRo (answers 0)) :
    transactional isRo body answers (n + 1) =
      let rest := transactional isRo (body.after (answers 0)) (fun j => answers (j + 1)) n
      ⟨(body []).execution isRo (answers 0) :: rest.executions, rest.result⟩ := by
  rw [transactional_succ h.1]
  rcases h.2 with ⟨⟨v, hending⟩, hthrows⟩ | ⟨hending, hthrows⟩ <;> rw [hending, hthrows]

theorem transactional_returns (hbegins : (answers 0 0).begins = true)
    (hending : ((body []).outcome isRo (answers 0)).ending = .ok v)
    (hthrows : ((body []).destroyed isRo (answers 0)).2 = false) :
    transactional isRo body answers (n + 1) =
      ⟨[(body []).execution isRo (answers 0)], .value v⟩ := by
  rw [transactional_succ hbegins, hending, hthrows]

theorem transactional_cases (isRo : Bool) (body : BlockBody A V X β)
    (answers : Nat → Nat → Reply A V) (n : Nat) :
    (body []).Repeats isRo (answers 0) ∨
    (∃ v, ((body []).outcome isRo (answers 0)).ending = .ok v ∧
      ((body []).destroyed isRo (answers 0)).2 = false ∧
        transactional isRo body answers (n + 1) =
          ⟨[(body []).execution isRo (answers 0)], .value v⟩) ∨
    ∃ executions result, (∀ v, result ≠ .value v) ∧
      (∀ e ∈ executions, e = (body []).execution isRo (answers 0)) ∧
        transactional isRo body answers (n + 1) = ⟨executions, result⟩ := by
  cases hbegins : (answers 0 0).begins with
  | false =>
      refine .inr (.inr ⟨[], .exception .begin, by simp, by simp, ?_⟩)
      rw [transactional, hbegins]
      rfl
  | true =>
      have hblock : transactional isRo body answers (n + 1) = _ := transactional_succ hbegins
      cases hending : ((body []).outcome isRo (answers 0)).ending with
      | ok v =>
          cases hthrows : ((body []).destroyed isRo (answers 0)).2 with
          | false => exact .inr (.inl ⟨v, rfl, rfl, transactional_returns hbegins hending hthrows⟩)
          | true => exact .inl ⟨hbegins, .inl ⟨⟨v, hending⟩, hthrows⟩⟩
      | error x =>
          rw [hending] at hblock
          cases hthrows : ((body []).destroyed isRo (answers 0)).2 with
          | true =>
              rw [hthrows] at hblock
              exact .inr (.inr ⟨_, _, by simp, by simp, hblock⟩)
          | false =>
              rw [hthrows] at hblock
              cases x with
              | retry => exact .inl ⟨hbegins, .inr ⟨hending, hthrows⟩⟩
              | alloc | readOnly | begin | other =>
                  exact .inr (.inr ⟨_, _, by simp, by simp, hblock⟩)

/-- A block that returns has executed its closure. -/
theorem executions_ne_nil (hv : (transactional isRo body answers n).result = .value v) :
    (transactional isRo body answers n).executions ≠ [] := by
  cases n with
  | zero => cases hv
  | succ n =>
      rcases transactional_cases isRo body answers n with hrepeats | ⟨v, -, -, hblock⟩ |
        ⟨executions, result, hnever, -, hblock⟩
      · rw [transactional_repeats hrepeats]
        simp
      · rw [hblock]
        simp
      · rw [hblock] at hv
        exact absurd hv (hnever v)

/-! ### Tame closures -/

theorem BlockBody.Tame.after (h : body.Tame isRo) (hrepeats : (body []).Repeats isRo replies) :
    (body.after replies).Tame isRo where
  executions earlier hearlier := h.executions (replies :: earlier) ⟨hrepeats, hearlier⟩
  retries earlier replies' later replies'' v hlater :=
    h.retries (replies :: earlier) replies' later replies'' v ⟨hrepeats, hlater⟩

/-- A block of which no execution returns. -/
theorem result_ne_value
    (h : ∀ earlier, body.Repeats isRo earlier → ∀ replies v,
      ((body earlier).outcome isRo replies).ending ≠ .ok v) (v : β) :
    (transactional isRo body answers n).result ≠ .value v := by
  induction n generalizing body answers with
  | zero => simp [transactional]
  | succ n ih =>
      rcases transactional_cases isRo body answers n with hrepeats | ⟨v, hending, -⟩ |
        ⟨executions, result, hnever, -, hblock⟩
      · rw [transactional_repeats hrepeats]
        exact ih fun earlier hearlier => h (answers 0 :: earlier) ⟨hrepeats, hearlier⟩
      · exact absurd hending (h [] trivial _ v)
      · rw [hblock]
        exact hnever v

theorem BlockBody.Tame.allOrNothing (h : body.Tame isRo) (answers : Nat → Nat → Reply A V)
    (n : Nat) : AllOrNothing (transactional isRo body answers n) := by
  induction n generalizing body answers with
  | zero => exact ⟨by rintro v ⟨⟩, by simp [transactional]⟩
  | succ n ih =>
      have htame := h.executions [] trivial
      have hcases := (body []).destroyed_cases isRo (answers 0)
      rcases transactional_cases isRo body answers n with hrepeats | ⟨v, hending, hthrows, hblock⟩ |
        ⟨executions, result, hnever, hfirst, hblock⟩
      · rw [transactional_repeats hrepeats]
        refine (ih (h.after hrepeats) _).cons (htame.sound _) ?_
        have hrefused := hrepeats.2
        rcases hcases with ⟨haborted, -, hcalls⟩ | ⟨haborted, hthrows, -⟩ | ⟨-, -, hcalls⟩
        · left
          rw [Execution.Aborted, hcalls]
          exact ((body []).flagged isRo (answers 0)).aborted.mp haborted
        · -- `TransactionRetry` of the closure's own: no later execution returns
          right
          rcases hrefused with ⟨-, hfails⟩ | ⟨hending, -⟩
          · rw [hthrows] at hfails
            cases hfails
          · exact result_ne_value fun later hlater replies' v =>
              h.retries [] (answers 0) later replies' v ⟨hrepeats, hlater⟩ hending haborted
        · exact .inl ⟨.finish, by simp [hcalls]⟩
      · rw [hblock]
        refine ⟨fun v' hv' => ⟨[], _, rfl, ?_, ?_, by simp⟩, ?_⟩
        · cases hv'
          exact hending
        · have haborted := htame.returns (answers 0) v hending
          rcases hcases with ⟨htrue, -⟩ | ⟨-, -, hcalls⟩ | ⟨-, htrue, -⟩
          · rw [haborted] at htrue
            cases htrue
          · rw [Execution.Committed, hcalls]
            simp
          · rw [hthrows] at htrue
            cases htrue
        · simpa using htame.sound (answers 0)
      · rw [hblock]
        exact ⟨fun v hv => absurd hv (hnever v), fun e he => hfirst e he ▸ htame.sound (answers 0)⟩

end Loop

/-! ### What the library can bring about -/

section Adversary

def Reply.committing (reply : Reply A V) : Reply A V := { reply with begins := true, ends := true }

theorem run_committing (replies : Nat → Reply A V) (tx : Transaction A V) (i : Nat) :
    func.run (fun k => (replies k).committing) tx i = func.run replies tx i := by
  induction func generalizing tx i with
  | value v => rfl
  | throw e => rfl
  | read source next ih => exact ih _ _ _
  | write content target next ih => exact ih _ _ _
  | alloc size next ih => exact ih _ _ _
  | free target next ih => exact ih _ _ _

theorem outcome_committing (replies : Nat → Reply A V) :
    func.outcome isRo (fun k => (replies k).committing) = func.outcome isRo replies :=
  run_committing replies _ 1

variable {body : BlockBody A V X β} {replies replies' : Nat → Reply A V}

theorem destroyed_committing (haborted : (func.outcome isRo replies).tx.aborted = false) :
    func.destroyed isRo (fun k => (replies k).committing) =
      ((func.outcome isRo replies).tx.log .finish .ok, false) := by
  rw [Closure.destroyed, outcome_committing, Transaction.destroy, haborted]
  rfl

/-- The first execution, whatever comes after it. -/
theorem first_execution (replies : Nat → Reply A V) :
    (body []).execution isRo (fun k => (replies k).committing) ∈
      (transactional isRo body (fun _ k => (replies k).committing) 1).executions := by
  rw [transactional_succ rfl]
  split <;> simp [transactional]

theorem committed_of_destroyed (haborted : (func.outcome isRo replies).tx.aborted = false) :
    (func.execution isRo fun k => (replies k).committing).Committed := by
  simp [Execution.Committed, Closure.execution, destroyed_committing haborted, Transaction.log]

section First

variable (h : ∀ answers n, AllOrNothing (transactional isRo body answers n))
include h

theorem stopsAtAbort_of_allOrNothing : StopsAtAbort ((body []).outcome isRo replies).tx.calls := by
  have hsound := (h _ 1).sound _ (first_execution replies)
  have hflagged := (body []).flagged isRo replies
  rcases (body []).destroyed_cases isRo (fun k => (replies k).committing) with ⟨-, -, hcalls⟩ |
    ⟨haborted, -, -⟩ | ⟨haborted, -, -⟩
  · rw [← outcome_committing, ← hcalls]
    exact hsound.stopsAtAbort
  all_goals
    rw [outcome_committing] at haborted
    exact fun call hcall => hflagged.not_abort haborted call (List.dropLast_subset _ hcall)

theorem not_aborted_of_allOrNothing {v : β}
    (hending : ((body []).outcome isRo replies).ending = .ok v) :
    ((body []).outcome isRo replies).tx.aborted = false := by
  cases haborted : ((body []).outcome isRo replies).tx.aborted with
  | false => rfl
  | true =>
      have hdestroyed : (body []).destroyed isRo (fun k => (replies k).committing) =
          (((body []).outcome isRo replies).tx, false) := by
        rw [Closure.destroyed, outcome_committing, Transaction.destroy, haborted]
        rfl
      have hvalue := (h (fun _ k => (replies k).committing) 1).value v
      rw [transactional_returns rfl (by rw [outcome_committing, hending])
        (by rw [hdestroyed])] at hvalue
      obtain ⟨earlier, last, hexecutions, -, hcommitted, -⟩ := hvalue rfl
      have hlast := congrArg List.getLast? hexecutions
      rw [List.getLast?_concat] at hlast
      obtain rfl := Option.some.inj hlast
      rw [Execution.Committed, Closure.execution, hdestroyed] at hcommitted
      exact (((body []).flagged isRo replies).not_finish hcommitted).elim

theorem not_wrote_of_allOrNothing {x : TxException X}
    (hending : ((body []).outcome isRo replies).ending = .error x) (hne : x ≠ .retry)
    (haborted : ((body []).outcome isRo replies).tx.aborted = false) :
    ¬ Wrote ((body []).outcome isRo replies).tx.calls := by
  intro hwrote
  have hsound := (h _ 1).sound _ (first_execution replies)
  have hthrown : ((body []).execution isRo fun k => (replies k).committing).ending = .error x := by
    rw [Closure.execution, outcome_committing, hending]
  refine hsound.nothing x hthrown hne (committed_of_destroyed haborted) ?_
  rw [Closure.execution, destroyed_committing haborted]
  exact wrote_append_finish.mpr hwrote

theorem tame_of_allOrNothing : (body []).Tame isRo :=
  ⟨fun _ => stopsAtAbort_of_allOrNothing h, fun _ _ => not_aborted_of_allOrNothing h,
    fun _ _ => not_wrote_of_allOrNothing h⟩

end First

/-! ### Later executions -/

def answersAfter (replies : Nat → Reply A V) (answers : Nat → Nat → Reply A V) :
    Nat → Nat → Reply A V
  | 0 => replies
  | j + 1 => answers j

theorem transactional_answersAfter (hrepeats : (body []).Repeats isRo replies)
    (answers : Nat → Nat → Reply A V) (n : Nat) :
    transactional isRo body (answersAfter replies answers) (n + 1) =
      ⟨(body []).execution isRo replies ::
          (transactional isRo (body.after replies) answers n).executions,
        (transactional isRo (body.after replies) answers n).result⟩ := by
  have hfirst : (body []).Repeats isRo (answersAfter replies answers 0) := hrepeats
  exact transactional_repeats hfirst

/-- What comes after an execution that is repeated is a block of its own. -/
theorem allOrNothing_after (h : ∀ answers n, AllOrNothing (transactional isRo body answers n))
    (hrepeats : (body []).Repeats isRo replies) (answers : Nat → Nat → Reply A V) (n : Nat) :
    AllOrNothing (transactional isRo (body.after replies) answers n) := by
  have hblock := h (answersAfter replies answers) (n + 1)
  rw [transactional_answersAfter hrepeats] at hblock
  exact hblock.tail fun _ => executions_ne_nil

theorem allOrNothing_later (h : ∀ answers n, AllOrNothing (transactional isRo body answers n))
    {earlier : List (Nat → Reply A V)} (hearlier : body.Repeats isRo earlier) :
    ∀ answers n,
      AllOrNothing (transactional isRo (fun later => body (earlier ++ later)) answers n) := by
  induction earlier generalizing body with
  | nil => exact h
  | cons replies earlier ih => exact ih (allOrNothing_after h hearlier.1) hearlier.2

theorem tame_later (h : ∀ answers n, AllOrNothing (transactional isRo body answers n))
    {earlier : List (Nat → Reply A V)} (hearlier : body.Repeats isRo earlier) :
    (body earlier).Tame isRo := by
  have htame := tame_of_allOrNothing (allOrNothing_later h hearlier)
  rwa [List.append_nil] at htame

/-- An execution that returns is one from which the block can return. -/
theorem exists_result_of_ending (h : ∀ answers n, AllOrNothing (transactional isRo body answers n))
    {later : List (Nat → Reply A V)} (hlater : body.Repeats isRo later) {v : β}
    (hending : ((body later).outcome isRo replies).ending = .ok v) :
    ∃ answers n, (transactional isRo body answers n).result = .value v := by
  induction later generalizing body with
  | nil =>
      have haborted := not_aborted_of_allOrNothing h hending
      refine ⟨fun _ k => (replies k).committing, 1, ?_⟩
      rw [transactional_returns rfl (by rw [outcome_committing, hending])
        (by rw [destroyed_committing haborted])]
  | cons first later ih =>
      obtain ⟨answers, n, hresult⟩ := ih (allOrNothing_after h hlater.1) hlater.2 hending
      refine ⟨answersAfter first answers, n + 1, ?_⟩
      rw [transactional_answersAfter hlater.1]
      exact hresult

theorem BlockBody.repeats_append {earlier later : List (Nat → Reply A V)} :
    body.Repeats isRo (earlier ++ later) ↔
      body.Repeats isRo earlier ∧
        BlockBody.Repeats isRo (fun more => body (earlier ++ more)) later := by
  induction earlier generalizing body with
  | nil => simp [BlockBody.Repeats]
  | cons first earlier ih =>
      rw [List.cons_append, BlockBody.Repeats, ih, BlockBody.Repeats, and_assoc]
      rfl

/-- A first execution that throws `TransactionRetry` by itself is committed, and no later one can
return. -/
theorem not_returns_of_allOrNothing
    (h : ∀ answers n, AllOrNothing (transactional isRo body answers n))
    {later : List (Nat → Reply A V)} (hlater : body.Repeats isRo (replies :: later))
    (hending : ((body []).outcome isRo replies).ending = .error .retry)
    (haborted : ((body []).outcome isRo replies).tx.aborted = false) (v : β) :
    ((body (replies :: later)).outcome isRo replies').ending ≠ .ok v := by
  intro hending'
  obtain ⟨answers, n, hresult⟩ :=
    exists_result_of_ending (allOrNothing_after h hlater.1) hlater.2 hending'
  have hblock := h (answersAfter replies answers) (n + 1)
  rw [transactional_answersAfter hlater.1] at hblock
  obtain ⟨call, hcall⟩ := hblock.aborted (fun _ => executions_ne_nil) hresult
  rcases (body []).destroyed_cases isRo replies with ⟨htrue, -⟩ | ⟨-, -, hcalls⟩ | ⟨-, hthrows, -⟩
  · rw [haborted] at htrue
    cases htrue
  · rw [hcalls] at hcall
    rcases List.mem_append.mp hcall with hmem | hmem
    · exact ((body []).flagged isRo replies).not_abort haborted _ hmem rfl
    · cases List.mem_singleton.mp hmem
  · rcases hlater.1.2 with ⟨⟨v, hok⟩, -⟩ | ⟨-, hfalse⟩
    · rw [hending] at hok
      cases hok
    · rw [hthrows] at hfalse
      cases hfalse

/-- A closure that captures nothing does the same in every execution. -/
theorem BlockBody.tame_const : BlockBody.Tame (fun _ => func) isRo ↔ func.Tame isRo ∧
    ∀ replies replies' v, (func.outcome isRo replies).ending = .error .retry →
      (func.outcome isRo replies).tx.aborted = false →
        (func.outcome isRo replies').ending ≠ .ok v := by
  constructor
  · refine fun h => ⟨h.executions [] trivial, fun replies replies' v hending haborted => ?_⟩
    have hcommitting : func.Repeats isRo fun k => (replies k).committing :=
      ⟨rfl, .inr ⟨by rw [outcome_committing, hending], by rw [destroyed_committing haborted]⟩⟩
    exact h.retries [] _ [] replies' v ⟨hcommitting, trivial⟩ (by rw [outcome_committing, hending])
      (by rw [outcome_committing, haborted])
  · exact fun h => ⟨fun _ _ => h.1, fun _ replies _ replies' v _ => h.2 replies replies' v⟩

end Adversary

/-- **A block is all or nothing** under every library if and only if its closure is tame. -/
theorem allOrNothing_iff_tame (func : BlockBody A V X β) (isRo : Bool) :
    (∀ answers n, AllOrNothing (transactional isRo func answers n)) ↔ func.Tame isRo := by
  constructor
  · intro h
    refine ⟨fun earlier hearlier => tame_later h hearlier,
      fun earlier replies later replies' v hall hending haborted => ?_⟩
    obtain ⟨hearlier, hlater⟩ := BlockBody.repeats_append.mp hall
    have hfirst : func (earlier ++ []) = func earlier := by rw [List.append_nil]
    exact not_returns_of_allOrNothing (allOrNothing_later h hearlier) hlater
      (by rw [hfirst, hending]) (by rw [hfirst, haborted]) v
  · exact fun h answers n => h.allOrNothing answers n

/-! ### Closures that pass exceptions on -/

/-- What follows a call whose exceptions leave the closure. -/
def Closure.orThrow {α : Type} (next : α → Closure A V X β) :
    Except (TxException X) α → Closure A V X β
  | .ok a => next a
  | .error e => .throw e

inductive Closure.Plain : Closure A V X β → Prop where
  | value (v : β) : Plain (.value v)
  | throw (e : TxException X) : Plain (.throw e)
  | read (source : A) {next : V → Closure A V X β} (h : ∀ v, (next v).Plain) :
      Plain (.read source (orThrow next))
  | write (content : V) (target : A) {next : Unit → Closure A V X β} (h : ∀ u, (next u).Plain) :
      Plain (.write content target (orThrow next))
  | alloc (size : Nat) {next : A → Closure A V X β} (h : ∀ a, (next a).Plain) :
      Plain (.alloc size (orThrow next))
  | free (target : A) {next : Unit → Closure A V X β} (h : ∀ u, (next u).Plain) :
      Plain (.free target (orThrow next))

/-- Up to here there was no abort, or the last call was one and nothing is returned. -/
def Outcome.GivesUp (outcome : Outcome A V X β) : Prop :=
  StopsAtAbort outcome.tx.calls ∧ ∀ v, outcome.ending = .ok v → outcome.tx.aborted = false

theorem givesUp_thrown (h : tx.Flagged) (haborted : tx.aborted = false) (e : TxException X)
    (i : Nat) : (⟨.error e, tx, i⟩ : Outcome A V X β).GivesUp :=
  ⟨fun call hcall => h.not_abort haborted call (List.dropLast_subset _ hcall), by rintro v ⟨⟩⟩

theorem givesUp_aborted (h : tx.Flagged) (haborted : tx.aborted = false) (call : LibraryCall A V)
    (e : TxException X) (i : Nat) : (⟨.error e, tx.abort call, i⟩ : Outcome A V X β).GivesUp := by
  refine ⟨?_, by rintro v ⟨⟩⟩
  rw [StopsAtAbort, Transaction.abort, List.dropLast_concat]
  exact h.not_abort haborted

theorem Closure.Plain.givesUp (hplain : func.Plain) (replies : Nat → Reply A V) (h : tx.Flagged)
    (haborted : tx.aborted = false) (i : Nat) : (func.run replies tx i).GivesUp := by
  induction hplain generalizing tx i with
  | value v =>
      exact ⟨fun call hcall => h.not_abort haborted call (List.dropLast_subset _ hcall),
        fun _ _ => haborted⟩
  | throw e => exact givesUp_thrown h haborted e i
  | read source _ ih =>
      simp only [Closure.run, Transaction.read]
      split
      · exact ih _ (h.log rfl (by rintro ⟨⟩)) haborted _
      · exact givesUp_aborted h haborted ..
  | write content target _ ih =>
      simp only [Closure.run, Transaction.write]
      split
      · exact givesUp_thrown h haborted ..
      · split
        · exact ih _ (h.log rfl (by rintro ⟨⟩)) haborted _
        · exact givesUp_aborted h haborted ..
  | alloc size _ ih =>
      simp only [Closure.run, Transaction.alloc]
      split
      · exact givesUp_thrown h haborted ..
      · split
        · exact ih _ (h.log rfl (by rintro ⟨⟩)) haborted _
        · exact givesUp_thrown (h.log rfl (by rintro ⟨⟩)) haborted ..
        · exact givesUp_aborted h haborted ..
  | free target _ ih =>
      simp only [Closure.run, Transaction.free]
      split
      · exact givesUp_thrown h haborted ..
      · split
        · exact ih _ (h.log rfl (by rintro ⟨⟩)) haborted _
        · exact givesUp_aborted h haborted ..

/-- Such closures are tame if they throw only before they write, and never `TransactionRetry`. -/
theorem BlockBody.tame_of_plain {body : BlockBody A V X β}
    (hplain : ∀ earlier, (body earlier).Plain)
    (hthrows : ∀ earlier replies x, ((body earlier).outcome isRo replies).ending = .error x →
      ((body earlier).outcome isRo replies).tx.aborted = false →
        x ≠ .retry ∧ ¬ Wrote ((body earlier).outcome isRo replies).tx.calls) : body.Tame isRo where
  executions earlier _ :=
    { stops := fun replies => ((hplain earlier).givesUp replies (.begun isRo) rfl 1).1
      returns := fun replies => ((hplain earlier).givesUp replies (.begun isRo) rfl 1).2
      throws := fun replies x hending _ haborted => (hthrows earlier replies x hending haborted).2 }
  retries earlier replies _ _ _ _ hending haborted :=
    ((hthrows earlier replies _ hending haborted).1 rfl).elim

/-! ### An allocation that fails after a write -/

def writeThenAlloc : Closure Nat Nat Unit Unit :=
  .write 1 0 (.orThrow fun _ => .alloc 8 (.orThrow fun _ => .value ()))

/-- `TransactionAlloc` leaves the block, and the write is committed. -/
theorem not_allOrNothing_after_nomem : ¬ AllOrNothing (transactional false (fun _ => writeThenAlloc)
    (fun _ _ => ⟨true, some 0, true, .nomem, true, true⟩) 1) := by
  intro h
  have hsound := h.sound ⟨.error .alloc,
    [(.write 1 0, .ok), (.alloc 8, .nomem), (.finish, .ok)]⟩ (List.mem_singleton.mpr rfl)
  exact hsound.nothing .alloc rfl (by rintro ⟨⟩) (by simp [Execution.Committed]) ⟨1, 0, by decide⟩

end TransactionalMemory.Grading
