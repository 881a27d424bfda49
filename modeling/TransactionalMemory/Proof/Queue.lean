import TransactionalMemory.Proof.Holds
import TransactionalMemory.Proof.Stages

/-!
# The queue of frees

What a commit has put into `to_free` so far, how far a batch deletion has come, and what each move
does to the queue.
-/

namespace TransactionalMemory

open Concurrency

variable {V : Type}

/-- `freed` is what the thread's transaction has freed, and `asked` the spot of the call of
`tm_free` it is in. -/
def Thread.Freed (freed : List Int) (asked : Int) : Thread V → Prop
  | .returning (.free true) (some t) => t.toFree = freed ++ [asked]
  | .returning (.begin _) (some t) => t.toFree = []
  | .freeing t target => t.toFree = freed ∧ asked = freeSpot target
  | thread => ∀ t, thread.tx = some t → t.toFree = freed

def Thread.pushed (freed : List Int) : Thread V → List Int
  | .ending t (.push i) => t.toFree.take i
  | .ending t .unlockCleanup | .ending t .checkBatch | .ending t .wrlock | .ending t (.drain _)
  | .ending t .wrunlock => t.toFree
  | .returning (.finish true) _ => freed
  | _ => []

def Thread.drained : Thread V → Option Nat
  | .ending _ (.drain i) => some i
  | _ => none

inductive QueueMove [Zero V] (tm : Tm V) (thread : Thread V) (event : Event V)
    (thread' : Thread V) : Prop where
  | quiet (hqueue : (tm.after event).toFree = tm.toFree)
      (hpushed : ∀ freed asked, thread.Freed freed asked →
        thread'.pushed freed = thread.pushed freed)
      (hdrained : thread'.drained = thread.drained)
      (hdelete : ∀ spot, event ≠ .op (.deleteSegment spot)) (hret : event ≠ .ret (.finish true))
  | early {t : Tx V} (hthread : thread = .ending t .start) (hempty : t.isRo = true ∨ t.ws = [])
      (hevent : event = .op .rdunlock) (hthread' : thread' = .returning (.finish true) none)
  | push {t : Tx V} {i : Nat} {spot capacity : Int} (hthread : thread = .ending t (.push i))
      (hspot : t.toFree[i]? = some spot) (hevent : event = .op (.pushToFree spot capacity))
      (hthread' : thread' = .ending t (.push (i + 1)))
  | wrlock {t : Tx V} (hthread : thread = .ending t .wrlock) (hwriter : tm.writer = false)
      (hevent : event = .op .wrlock) (hthread' : thread' = .ending t (.drain 0))
  | delete {t : Tx V} {i : Nat} {spot : Int} (hthread : thread = .ending t (.drain i))
      (hspot : tm.toFree[i]? = some spot) (hevent : event = .op (.deleteSegment spot))
      (hthread' : thread' = .ending t (.drain (i + 1)))
  | reset {t : Tx V} {i : Nat} (hthread : thread = .ending t (.drain i))
      (hend : tm.toFree[i]? = none) (hevent : event = .op .resetToFree)
      (hthread' : thread' = .ending t .wrunlock)
  | finished {t : Option (Tx V)} (hthread : thread = .returning (.finish true) t)
      (hevent : event = .ret (.finish true)) (hpushed : ∀ freed, thread'.pushed freed = [])
      (hdrained : thread'.drained = none)

theorem Tm.deleteSegment_toFree (tm : Tm V) (spot : Int) :
    (tm.deleteSegment spot).toFree = tm.toFree := by
  unfold Tm.deleteSegment
  split <;> rfl

section Moves

variable [Zero V] {platform : Platform V} {tm : Tm V} {choice : Choice V}
  {thread thread' : Thread V} {event : Event V}

theorem TmEndMove.queueMove {t : Tx V} {pc : EndPc}
    (h : TmEndMove platform tm t pc event thread') : QueueMove tm (.ending t pc) event thread' := by
  cases h with
  | early hempty => exact .early rfl hempty rfl rfl
  | push hi => exact .push rfl hi rfl rfl
  | wrlock hwriter hreaders => exact .wrlock rfl hwriter rfl rfl
  | drain hi => exact .delete rfl hi rfl rfl
  | drainNull hi => exact .delete rfl hi rfl rfl
  | drained hi => exact .reset rfl hi rfl rfl
  | noBatch => exact .quiet rfl (fun freed asked h => (h t rfl).symm) rfl (by simp) (by simp)
  | wrunlock => exact .quiet rfl (fun freed asked h => (h t rfl).symm) rfl (by simp) (by simp)
  | copied =>
      refine .quiet rfl (fun freed asked _ => ?_) ?_ (by simp) (by simp)
      · split
        · exact List.isEmpty_iff.mp ‹_›
        · rfl
      · split <;> rfl
  | pushed hi =>
      refine .quiet rfl (fun freed asked _ => ?_) rfl (by simp) (by simp)
      exact (List.take_of_length_le (List.getElem?_eq_none_iff.mp hi)).symm
  | _ => exact .quiet rfl (fun _ _ _ => rfl) rfl (by simp) (by simp)

theorem ThreadMove.queueMove (hanswers : thread.Answers)
    (h : ThreadMove platform tm choice thread event thread') :
    QueueMove tm thread event thread' := by
  cases h with
  | finish h => exact h.queueMove
  | @retIdle r | @retLive r t =>
      cases r with
      | finish ok =>
          cases ok with
          | false => exact .quiet rfl (fun _ _ _ => rfl) rfl (by simp) (by simp)
          | true => exact .finished rfl rfl (fun _ => rfl) rfl
      | _ => exact .quiet rfl (fun _ _ _ => rfl) rfl (by simp) (by simp)
  | @cleanup t r =>
      refine .quiet rfl (fun freed asked _ => ?_) rfl (by simp) (by simp)
      cases r with
      | finish ok =>
          cases ok with
          | false => rfl
          | true => exact absurd rfl hanswers.2.1
      | _ => rfl
  | call h | begin h | read h | roRead h | write h | alloc h | free h =>
      cases h <;> exact .quiet rfl (fun _ _ _ => rfl) rfl (by simp) (by simp)
  | start => exact .quiet rfl (fun _ _ _ => rfl) rfl (by simp) (by simp)

def freedNext (event : Event V) (freed : List Int) (asked : Int) : List Int :=
  match event with
  | .ret (.begin _) => []
  | .ret (.free true) => freed ++ [asked]
  | _ => freed

def askedNext (event : Event V) (asked : Int) : Int :=
  match event with
  | .call (.free target) => freeSpot target
  | _ => asked

omit [Zero V] in
theorem ThreadMove.freed {freed : List Int} {asked : Int} (hfreed : thread.Freed freed asked)
    (h : ThreadMove platform tm choice thread event thread') :
    thread'.Freed (freedNext event freed asked) (askedNext event asked) := by
  have hadd_keep : ∀ {t t' : Tx V} {w : Word} {versionRead : Int} {reallocOk ok : Bool},
      t.addToReadset w versionRead reallocOk = .next (ok, t') → t.toFree = freed →
      t'.toFree = freed :=
    fun hadd hfreed => (Tx.addToReadset_eq hadd).2.2.2.2.trans hfreed
  cases h with
  | @call t event thread' h =>
      cases h with
      | free => exact ⟨hfreed t rfl, rfl⟩
      | _ => exact hfreed
  | begin h =>
      cases h with
      | started => exact rfl
      | _ => intro t ht; cases ht
  | @read t c pc event thread' h =>
      cases h with
      | confirmed hw hread hadd =>
          rintro t' ⟨⟩
          exact hadd_keep hadd (hfreed t rfl)
      | _ => exact hfreed
  | @roRead t c pc event thread' h =>
      cases h with
      | recorded hi hw hread hold hadd | notRecorded hi hw hread hold hadd =>
          rintro t' ⟨⟩
          exact hadd_keep hadd (hfreed t rfl)
      | extended hrs hk hw hadd | notExtended hrs hk hw hadd =>
          rintro t' ⟨⟩
          exact hadd_keep hadd (hfreed t rfl)
      | _ => exact hfreed
  | @write t c i event thread' h =>
      cases h with
      | overwritten =>
          rintro t' ⟨⟩
          exact hfreed t rfl
      | appended hi hw hfree hold hx hmiss happend =>
          obtain ⟨rs, sz, -, rfl⟩ := Tx.append_eq happend
          rintro t' ⟨⟩
          exact hfreed t rfl
      | _ => exact hfreed
  | alloc h => cases h <;> exact hfreed
  | @free t target event thread' h =>
      obtain ⟨hfrees, hasked⟩ := hfreed
      cases h with
      | first =>
          rintro t' ⟨⟩
          exact hfrees
      | queued => simp only [Thread.Freed, hfrees, hasked, freedNext, askedNext, freeSpot]
  | @finish t pc event thread' h =>
      cases h with
      | sort =>
          rintro t' ⟨⟩
          exact hfreed t rfl
      | early | noBatch | wrunlock => rintro t' ⟨⟩
      | _ => exact hfreed
  | start | retIdle => rintro t ⟨⟩
  | cleanup =>
      unfold Thread.Freed
      split <;> simp_all [Thread.tx]
  | @retLive r t =>
      rintro t' ⟨⟩
      cases r with
      | begin valid => exact hfreed
      | free ok =>
          cases ok with
          | true => exact hfreed
          | false => exact hfreed t rfl
      | _ => exact hfreed t rfl

omit [Zero V] in
/-- Only returns change what a transaction has freed, and a thread outside its calls has pushed
nothing. -/
theorem ThreadMove.pushed_freedNext {freed : List Int} {asked : Int}
    (h : ThreadMove platform tm choice thread event thread') :
    thread'.pushed (freedNext event freed asked) = thread'.pushed freed := by
  unfold freedNext
  split
  · rcases h.of_ret rfl with ⟨t, -, rfl⟩ | ⟨-, rfl⟩ <;> rfl
  · rcases h.of_ret rfl with ⟨t, -, rfl⟩ | ⟨-, rfl⟩ <;> rfl
  · rfl

end Moves

end TransactionalMemory
