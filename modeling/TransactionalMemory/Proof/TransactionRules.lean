import TransactionalMemory.Model.ReferenceThreads

/-!
# Rules for transactions that run alone

One rule for each call: a transaction that makes it is totally correct when what follows the call
is. The words of a range are copied one by one, and the rules for `tm_read` and `tm_write` speak of
the whole range.
-/

namespace TransactionalMemory.Reference

open Concurrency

variable {V π β : Type}

/-! ### Allocations -/

section Allocation

variable (r : Region V)

def Region.withSegment [Zero V] (size : Nat) : Region V :=
  { r with
    allocs := r.blockCount :: r.allocs
    segment := Function.update r.segment r.blockCount (some size)
    blockCount := r.blockCount + 1
    word := Function.update r.word r.blockCount fun _ => 0 }

def Region.withoutSegment (b : BlockId) : Region V :=
  { r with allocs := r.allocs.erase b, segment := Function.update r.segment b none }

variable {r} {ok : Bool} {size : Nat} {target : Ptr}

theorem tmAlloc_of [Zero V] (h : posixMemalign (if r.align < 8 then 8 else r.align) ok = true) :
    tmAlloc r ok size = (some ⟨r.blockCount, 0⟩, r.withSegment size) := by
  simp only [tmAlloc, h, if_true, Region.withSegment]

theorem tmAlloc_of_not [Zero V]
    (h : posixMemalign (if r.align < 8 then 8 else r.align) ok = false) :
    tmAlloc r ok size = (none, r) := by
  simp only [tmAlloc, h, Bool.false_eq_true, if_false]

theorem tmFree_of (h : target.offset = 0 ∧ target.block ∈ r.allocs) :
    tmFree r target = .next (true, r.withoutSegment target.block) := by
  simp only [tmFree, if_pos h, Region.withoutSegment]

theorem tmFree_of_not (h : ¬ (target.offset = 0 ∧ target.block ∈ r.allocs)) :
    tmFree r target = .crash := by
  simp only [tmFree, if_neg h]

end Allocation

/-! ### One step of each kind -/

section Points

variable [Zero V] {request : π → Request V π β} {r : Region V} {ok : Bool} {source target : Ptr}
  {size i : Nat} {copied values : List V} {v : V} {p next : π} {answer : List V → π}

theorem TxPoint.step_reading (h : copied.length < size / r.align)
    (hin : r.inBounds (source.word r.align copied.length) r.align = true) :
    (TxPoint.reading source size copied answer).step request r ok = .next (.reading source size
      (copied ++ r.load (source.word r.align copied.length) 1) answer, r) := by
  simp only [TxPoint.step, if_pos h, if_pos hin]

theorem TxPoint.step_reading_crash (h : copied.length < size / r.align)
    (hin : ¬ r.inBounds (source.word r.align copied.length) r.align = true) :
    (TxPoint.reading source size copied answer).step request r ok = .crash := by
  simp only [TxPoint.step, if_pos h, if_neg hin]

theorem TxPoint.step_read (h : ¬ copied.length < size / r.align) :
    (TxPoint.reading source size copied answer).step request r ok =
      .next (.client (answer copied), r) := by
  simp only [TxPoint.step, if_neg h]

theorem TxPoint.step_writing (h : i < size / r.align) (hv : values[i]? = some v)
    (hin : r.inBounds (target.word r.align i) r.align = true) :
    (TxPoint.writing values size target i next).step request r ok =
      .next (.writing values size target (i + 1) next, r.store (target.word r.align i) [v]) := by
  simp only [TxPoint.step, if_pos h, hv, if_pos hin]

theorem TxPoint.step_writing_crash (h : i < size / r.align)
    (hin : values[i]? = none ∨ ¬ r.inBounds (target.word r.align i) r.align = true) :
    (TxPoint.writing values size target i next).step request r ok = .crash := by
  simp only [TxPoint.step, if_pos h]
  cases hv : values[i]? with
  | none => rfl
  | some v => simp only [if_neg (hin.resolve_left (by simp [hv]))]

theorem TxPoint.step_written (h : ¬ i < size / r.align) :
    (TxPoint.writing values size target i next).step request r ok = .next (.client next, r) := by
  simp only [TxPoint.step, if_neg h]

theorem TxPoint.step_alloc {answer : Option Ptr → π} (hp : request p = .alloc size answer) :
    (TxPoint.client p).step request r ok =
      .next (.client (answer (tmAlloc r ok size).1), (tmAlloc r ok size).2) := by
  simp only [TxPoint.step, hp]

theorem TxPoint.step_free (hp : request p = .free target next)
    (h : target.offset = 0 ∧ target.block ∈ r.allocs) :
    (TxPoint.client p).step request r ok = .next (.client next, r.withoutSegment target.block) := by
  simp only [TxPoint.step, hp, tmFree_of h]

theorem TxPoint.step_free_crash (hp : request p = .free target next)
    (h : ¬ (target.offset = 0 ∧ target.block ∈ r.allocs)) :
    (TxPoint.client p).step request r ok = .crash := by
  simp only [TxPoint.step, hp, tmFree_of_not h]

end Points

/-! ### Ranges, word by word -/

section Ranges

variable {r : Region V} {p : Ptr} {n i : Nat} {values : List V} {v : V}

theorem Ptr.word_index (halign : 0 < r.align) :
    (p.word r.align i).offset / r.align = p.offset / r.align + i :=
  Nat.add_mul_div_right _ _ halign

theorem Region.load_succ (halign : 0 < r.align) :
    r.load p (i + 1) = r.load p i ++ r.load (p.word r.align i) 1 := by
  simp only [Region.load, List.range_succ, List.map_append, List.map_cons, List.map_nil,
    Ptr.word_index halign, List.range_zero, List.nil_append, Nat.add_zero]
  rfl

theorem Region.store_word (halign : 0 < r.align) (b : BlockId) (k : Nat) :
    (r.store (p.word r.align i) [v]).word b k =
      if b = p.block ∧ k = p.offset / r.align + i then v else r.word b k := by
  simp only [Region.store, Ptr.word_index halign]
  by_cases hb : b = p.block
  · subst hb
    rcases Nat.lt_trichotomy k (p.offset / r.align + i) with hlt | rfl | hgt
    · rw [if_neg fun h => Nat.not_le.mpr hlt h.2, if_neg fun h => hlt.ne h.2]
    · simp [Ptr.word]
    · obtain ⟨j, rfl⟩ := Nat.exists_eq_add_of_lt hgt
      rw [if_pos ⟨rfl, hgt.le⟩, if_neg fun h => hgt.ne' h.2]
      have hj : p.offset / r.align + i + j + 1 - (p.offset / r.align + i) = j + 1 := by omega
      simp [hj]
  · rw [if_neg fun h => hb h.1, if_neg fun h => hb h.1]

theorem Region.store_succ (halign : 0 < r.align) (hv : values[i]? = some v) :
    (r.store p (values.take i)).store (p.word r.align i) [v] = r.store p (values.take (i + 1)) := by
  have hword : ∀ b k, ((r.store p (values.take i)).store (p.word r.align i) [v]).word b k =
      (r.store p (values.take (i + 1))).word b k := by
    intro b k
    refine (Region.store_word (r := r.store p (values.take i)) halign b k).trans ?_
    by_cases hin : b = p.block ∧ p.offset / r.align ≤ k
    · obtain ⟨rfl, hle⟩ := hin
      obtain ⟨j, rfl⟩ := Nat.exists_eq_add_of_le hle
      simp only [Region.store, Nat.le_add_right, and_self, if_true, true_and,
        Nat.add_sub_cancel_left, List.getElem?_take, Nat.add_left_cancel_iff]
      rcases Nat.lt_trichotomy j i with hlt | rfl | hgt
      · rw [if_pos hlt, if_pos (Nat.lt_succ_of_lt hlt), if_neg hlt.ne]
      · rw [if_pos rfl, if_pos (Nat.lt_succ_self j), hv]
        rfl
      · rw [if_neg hgt.ne', if_neg (Nat.lt_asymm hgt), if_neg (Nat.not_lt.mpr hgt)]
    · have hout : ¬ (b = p.block ∧ k = p.offset / r.align + i) := fun h => hin ⟨h.1, by omega⟩
      simp only [Region.store, if_neg hin, if_neg hout]
  exact congrArg (fun word => { r with word := word }) (funext fun b => funext (hword b))

end Ranges

/-! ### The rules -/

section Rules

variable [Zero V] {request : π → Request V π β} {post : β → Region V → Prop} {r : Region V}
  {source target : Ptr} {size : Nat} {values : List V} {p next : π} {b : β}

theorem total_finish (hp : request p = .finish b) (hpost : post b r) :
    (transactions request).Total post (.client p, r) :=
  .result (by simp only [transactions, TxPoint.result, hp]) hpost

/-- A step that no allocation decides. -/
theorem total_next {x y : TxPoint V π × Region V}
    (hstep : ∀ ok, x.1.step request x.2 ok = .next y) (h : (transactions request).Total post y) :
    (transactions request).Total post x := by
  refine .next ⟨true, hstep true⟩ ?_ h
  rintro z ⟨ok, hz⟩
  exact (Outcome.next.inj ((hstep ok).symm.trans hz)).symm

theorem total_skip (hp : request p = .skip next)
    (h : (transactions request).Total post (.client next, r)) :
    (transactions request).Total post (.client p, r) :=
  total_next (fun _ => by simp only [TxPoint.step, hp]) h

theorem total_read {answer : List V → π} (hp : request p = .read source size answer)
    (hin : ∀ i < size / r.align, r.inBounds (source.word r.align i) r.align = true)
    (h : (transactions request).Total post (.client (answer (r.load source (size / r.align))), r)) :
    (transactions request).Total post (.client p, r) := by
  have hcopy : ∀ k i, i + k = size / r.align → (transactions request).Total post
      (.reading source size (r.load source i) answer, r) := by
    intro k
    induction k with
    | zero =>
        intro i hi
        have hlen : ¬ (r.load source i).length < size / r.align := by simp [Region.load]; omega
        refine total_next (fun _ => TxPoint.step_read hlen) ?_
        rwa [show i = size / r.align from hi]
    | succ k ih =>
        intro i hi
        have hlength : (r.load source i).length = i := by simp [Region.load]
        have halign : 0 < r.align := Nat.pos_of_ne_zero fun h => by simp [h] at hi
        have hlen : (r.load source i).length < size / r.align := by omega
        refine total_next (fun _ => TxPoint.step_reading hlen ?_) ?_
        · rw [hlength]
          exact hin i (by omega)
        · rw [hlength, ← Region.load_succ halign]
          exact ih (i + 1) (by omega)
  refine total_next (y := (.reading source size [] answer, r)) (fun _ => ?_) ?_
  · simp only [TxPoint.step, hp]
  · exact hcopy _ 0 (Nat.zero_add _)

theorem total_write (hp : request p = .write values size target next)
    (hvalues : size / r.align ≤ values.length)
    (hin : ∀ i < size / r.align, r.inBounds (target.word r.align i) r.align = true)
    (h : (transactions request).Total post
      (.client next, r.store target (values.take (size / r.align)))) :
    (transactions request).Total post (.client p, r) := by
  have hcopy : ∀ k i, i + k = size / r.align → (transactions request).Total post
      (.writing values size target i next, r.store target (values.take i)) := by
    intro k
    induction k with
    | zero =>
        intro i hi
        have hdone : ¬ i < size / (r.store target (values.take i)).align :=
          fun hlt => hlt.ne hi
        refine total_next (fun _ => TxPoint.step_written hdone) ?_
        rwa [show i = size / r.align from hi]
    | succ k ih =>
        intro i hi
        have halign : 0 < r.align := Nat.pos_of_ne_zero fun h => by simp [h] at hi
        have hlt : i < size / r.align := by omega
        have hv : values[i]? = some values[i] := List.getElem?_eq_getElem _
        refine total_next (fun _ => TxPoint.step_writing
          (r := r.store target (values.take i)) hlt hv (hin i hlt)) ?_
        rw [show (r.store target (values.take i)).align = r.align from rfl,
          Region.store_succ halign hv]
        exact ih (i + 1) (by omega)
  refine total_next (y := (.writing values size target 0 next, r)) (fun _ => ?_) ?_
  · simp only [TxPoint.step, hp]
  · have hnone : r.store target (values.take 0) = r := by simp [Region.store]
    have hstart := hcopy _ 0 (Nat.zero_add _)
    rwa [hnone] at hstart

theorem total_alloc {answer : Option Ptr → π} (hp : request p = .alloc size answer)
    (hsuccess : (transactions request).Total post
      (.client (answer (some ⟨r.blockCount, 0⟩)), r.withSegment size))
    (hnomem : (transactions request).Total post (.client (answer none), r)) :
    (transactions request).Total post (.client p, r) := by
  refine .step ⟨_, true, TxPoint.step_alloc hp⟩ ?_
  rintro z ⟨ok, hz⟩
  cases hz.symm.trans (TxPoint.step_alloc hp)
  cases hok : posixMemalign (if r.align < 8 then 8 else r.align) ok with
  | true => rwa [tmAlloc_of hok]
  | false => rwa [tmAlloc_of_not hok]

theorem total_free (hp : request p = .free target next)
    (htarget : target.offset = 0 ∧ target.block ∈ r.allocs)
    (h : (transactions request).Total post (.client next, r.withoutSegment target.block)) :
    (transactions request).Total post (.client p, r) :=
  total_next (fun _ => TxPoint.step_free hp htarget) h

end Rules

end TransactionalMemory.Reference
