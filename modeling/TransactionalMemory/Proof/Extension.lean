import TransactionalMemory.Proof.History
import TransactionalMemory.Proof.Ranges

/-!
# The snapshot of a read-only transaction

`ro_transaction_read` may move the version of its transaction forward in the middle of a range: it
loads the clock and looks up every recorded version once more. A record that is still current was
copied from a word that shows the copy at the new version too. For the word at hand there is no
second look, so what its last check saw has to be still true when the clock is loaded.
-/

namespace TransactionalMemory

open Concurrency

variable {V Tid : Type}

/-! ### Reads in a log -/

def Entry.read? : Entry V → Option (Word × V)
  | .read w x _ => some (w, x)
  | .write _ _ => none

def TxLog.reads (log : TxLog V) : List (Word × V) := log.entries.filterMap Entry.read?

theorem Entry.filterMap_reads {words : List Word} {values : List V} {own : List Bool}
    (hown : own.length = values.length) :
    (Entry.reads words values own).filterMap Entry.read? = words.zip values := by
  have hcomp : Entry.read? ∘ (fun e : Word × V × Bool => Entry.read e.1 e.2.1 e.2.2) =
      fun e => some (e.1, e.2.1) := rfl
  have hfst : (values.zip own).map Prod.fst = values := List.map_fst_zip (by omega)
  rw [Entry.reads, List.filterMap_map, hcomp, List.filterMap_eq_map', ← List.map_id words]
  conv_rhs => rw [← hfst, List.zip_map]
  simp [Prod.map]

theorem Entry.filterMap_writes {words : List Word} {values : List V} :
    (Entry.writes words values).filterMap Entry.read? = [] := by
  refine List.filterMap_eq_nil_iff.mpr fun e he => ?_
  obtain ⟨-, -, rfl⟩ := List.mem_map.mp he
  rfl

/-! ### What the read set says -/

section Invariant

variable [Zero V]

/-- An item of the read set and the read it was made for. -/
def Recorded (store : Store Tid Word V) (c : Nat) (item : RsItem) (e : Word × V) : Prop :=
  ∃ v : Nat, item = ⟨v, some e.1⟩ ∧ v ≤ c ∧ store.Copied e.1 v e.2 ∧
    store.Shows (fun _ => 0) c e.1 e.2

def Covers (store : Store Tid Word V) (c : Nat) (rs : Option (List RsItem))
    (reads : List (Word × V)) : Prop :=
  ∃ items, rs = some items ∧ List.Forall₂ (Recorded store c) items reads

/-- The first `i` words of the range have passed the second loop. -/
structure PostSoFar (store : Store Tid Word V) (log : TxLog V) (c : Nat) (rs : Option (List RsItem))
    (i : Nat) (prev : List Int) (values : List V) : Prop where
  covers : Covers store c rs (log.reads ++ (log.words.zip values).take i)
  own_length : log.own.length = values.length
  values_length : values.length = log.words.length
  copied : ∀ (j : Nat) w x, log.words[j]? = some w → values[j]? = some x →
    ∃ v : Nat, prev[j]? = some (v : Int) ∧ store.Copied w v x

def RoPc.Sound (store : Store Tid Word V) (log : TxLog V) (c : Nat) (rs : Option (List RsItem)) :
    RoPc V → Prop
  | .pre i prev => Covers store c rs log.reads ∧ log.own = [] ∧ prev.length = i ∧
      ∀ (j : Nat) w, j < i → log.words[j]? = some w →
        ∃ v : Nat, prev[j]? = some (v : Int) ∧ v ≤ store.version w
  | .copy prev target => Covers store c rs log.reads ∧
      log.own.length = target.countP Option.isSome ∧ target.length = log.words.length ∧
      ∀ (j : Nat) w, log.words[j]? = some w → ∃ v : Nat, prev[j]? = some (v : Int) ∧
        v ≤ store.version w ∧ ∀ x, target[j]? = some (some x) → store.Copied w v x
  | .post i prev target => ∃ values, target = values.map some ∧
      PostSoFar store log c rs i prev values
  | .loadClock i versionRead prev target => ∃ values, target = values.map some ∧
      PostSoFar store log c rs i prev values ∧ ∃ (w : Word) (x : V) (v : Nat),
        log.words[i]? = some w ∧ values[i]? = some x ∧ versionRead = v ∧ store.Copied w v x
  | .revalidate i k versionRead nextRv prev target => ∃ values, target = values.map some ∧
      PostSoFar store log c rs i prev values ∧ ∃ next : Nat, nextRv = next ∧ c ≤ next ∧
        next ≤ store.clock ∧
        (∃ (w : Word) (x : V), log.words[i]? = some w ∧ values[i]? = some x ∧
          Recorded store next ⟨versionRead, some w⟩ (w, x)) ∧
        ∀ (j : Nat) e, j < k → (log.reads ++ (log.words.zip values).take i)[j]? = some e →
          store.Shows (fun _ => 0) next e.1 e.2

def Thread.RoSound (store : Store Tid Word V) (log : TxLog V) (c : Nat) : Thread V → Prop
  | .roReading t call pc => t.rv = c ∧
      CallWords call.seg call.startIdx call.numWords log.words ∧
      CallWords call.seg call.firstWord call.words log.words ∧ pc.Sound store log c t.rs
  | .returning (.read (some values)) (some t) => t.rv = c ∧ log.own.length = values.length ∧
      Covers store c t.rs (log.reads ++ log.words.zip values)
  | .live t | .allocating t _ _ | .freeing t _ | .returning _ (some t) => t.rv = c ∧
      Covers store c t.rs log.reads
  | _ => True

/-- A read-only transaction sees the region at one version, not below the sampled one. -/
def TxLog.RoSnapshot (store : Store Tid Word V) (thread : Thread V) (log : TxLog V) : Prop :=
  log.isRo = true → ∃ c, log.sampled ≤ c ∧ c ≤ store.clock ∧
    (∀ e ∈ log.reads, store.Shows (fun _ => 0) c e.1 e.2) ∧ thread.RoSound store log c

variable {store store' : Store Tid Word V} {log : TxLog V} {c : Nat} {rs : Option (List RsItem)}
  {reads : List (Word × V)} {thread : Thread V}

theorem Recorded.later {item : RsItem} {e : Word × V} (h : Recorded store c item e)
    (hlater : Store.Later (fun _ => 0) store store') : Recorded store' c item e := by
  obtain ⟨v, hitem, hle, hcopied, hshows⟩ := h
  exact ⟨v, hitem, hle, hlater.copied _ _ _ hcopied, hlater.shows _ _ _ hshows⟩

theorem Covers.later (h : Covers store c rs reads)
    (hlater : Store.Later (fun _ => 0) store store') :
    Covers store' c rs reads := by
  obtain ⟨items, hrs, hitems⟩ := h
  exact ⟨items, hrs, hitems.imp fun _ _ h => h.later hlater⟩

theorem PostSoFar.later {i : Nat} {prev : List Int} {values : List V}
    (h : PostSoFar store log c rs i prev values) (hlater : Store.Later (fun _ => 0) store store') :
    PostSoFar store' log c rs i prev values := by
  refine ⟨h.covers.later hlater, h.own_length, h.values_length, fun j w x hw hx => ?_⟩
  obtain ⟨v, hv, hcopied⟩ := h.copied j w x hw hx
  exact ⟨v, hv, hlater.copied _ _ _ hcopied⟩

theorem RoPc.Sound.later {pc : RoPc V} (h : pc.Sound store log c rs)
    (hlater : Store.Later (fun _ => 0) store store') : pc.Sound store' log c rs := by
  cases pc with
  | pre i prev =>
      obtain ⟨hcovers, hown, hlength, hprev⟩ := h
      refine ⟨hcovers.later hlater, hown, hlength, fun j w hj hw => ?_⟩
      obtain ⟨v, hv, hle⟩ := hprev j w hj hw
      exact ⟨v, hv, hle.trans (hlater.version_le w)⟩
  | copy prev target =>
      obtain ⟨hcovers, hown, hlength, hprev⟩ := h
      refine ⟨hcovers.later hlater, hown, hlength, fun j w hw => ?_⟩
      obtain ⟨v, hv, hle, hcopied⟩ := hprev j w hw
      exact ⟨v, hv, hle.trans (hlater.version_le w), fun x hx => hlater.copied _ _ _ (hcopied x hx)⟩
  | post i prev target =>
      obtain ⟨values, htarget, hpost⟩ := h
      exact ⟨values, htarget, hpost.later hlater⟩
  | loadClock i versionRead prev target =>
      obtain ⟨values, htarget, hpost, w, x, v, hw, hx, hv, hcopied⟩ := h
      exact ⟨values, htarget, hpost.later hlater, w, x, v, hw, hx, hv, hlater.copied _ _ _ hcopied⟩
  | revalidate i k versionRead nextRv prev target =>
      obtain ⟨values, htarget, hpost, next, hnext, hle, hclock, ⟨w, x, hw, hx, hrec⟩, hdone⟩ := h
      exact ⟨values, htarget, hpost.later hlater, next, hnext, hle, hclock.trans hlater.clock_le,
        ⟨w, x, hw, hx, hrec.later hlater⟩, fun j e hj he => hlater.shows _ _ _ (hdone j e hj he)⟩

theorem Thread.RoSound.later (h : thread.RoSound store log c)
    (hlater : Store.Later (fun _ => 0) store store') : thread.RoSound store' log c := by
  cases thread with
  | roReading t call pc => exact ⟨h.1, h.2.1, h.2.2.1, h.2.2.2.later hlater⟩
  | live t | allocating t size pc | freeing t target => exact ⟨h.1, h.2.later hlater⟩
  | returning r t =>
      cases t with
      | none =>
          cases r with
          | read target => cases target <;> trivial
          | _ => trivial
      | some t =>
          cases r with
          | read target =>
              cases target with
              | none => exact ⟨h.1, h.2.later hlater⟩
              | some values => exact ⟨h.1, h.2.1, h.2.2.later hlater⟩
          | _ => exact ⟨h.1, h.2.later hlater⟩
  | _ => trivial

theorem TxLog.RoSnapshot.later (h : log.RoSnapshot store thread)
    (hlater : Store.Later (fun _ => 0) store store') : log.RoSnapshot store' thread := by
  intro hro
  obtain ⟨c, hsampled, hclock, hreads, hsound⟩ := h hro
  exact ⟨c, hsampled, hclock.trans hlater.clock_le, fun e he => hlater.shows _ _ _ (hreads e he),
    hsound.later hlater⟩

end Invariant

/-! ### One step -/

/-- The ranges that read-only transactions read have word indices that `int` holds. -/
def RoReadsFit (s : State Tid V) (l : Label Tid V) : Prop :=
  ∀ t source size, s.thread l.tid = .live t → t.isRo = true →
    l.event = .call (.read source size) → s.tm.WordsFit source size

/-- When a read-only transaction loads the clock to move its version forward, the word it has just
checked still has the version seen, and no commit that has locked it has drawn its own version. -/
def ExtendsSafely (s : State Tid V) (l : Label Tid V) : Prop :=
  ∀ t c i versionRead prev target,
    s.thread l.tid = .roReading t c (.loadClock i versionRead prev target) →
    s.tm.lock ⟨c.seg, (c.startIdx + i).toNat⟩ / 2 = versionRead ∧
      ∀ tid, ⟨c.seg, (c.startIdx + i).toNat⟩ ∈ (s.thread tid).held → (s.thread tid).stage = .early

section Step

variable [Zero V] {platform : Platform V} {s s' : State Tid V} {l : Label Tid V}
  {store store' : Store Tid Word V} {log log' : TxLog V} {c : Nat} {reads : List (Word × V)}

theorem Covers.shows {rs : Option (List RsItem)} (h : Covers store c rs reads) {e : Word × V}
    (he : e ∈ reads) : store.Shows (fun _ => 0) c e.1 e.2 := by
  obtain ⟨items, -, hrel⟩ := h
  obtain ⟨j, hj, rfl⟩ := List.mem_iff_getElem.mp he
  obtain ⟨v, -, -, -, hshows⟩ := hrel.get (hrel.length_eq.symm ▸ hj) hj
  exact hshows

theorem Covers.add {t t' : Tx V} {w : Word} {v : Int} {x : V} {reallocOk : Bool}
    (h : Covers store c t.rs reads) (hro : t.isRo = true)
    (hadd : t.addToReadset w v reallocOk = .next (true, t'))
    (hrec : Recorded store c ⟨v, some w⟩ (w, x)) : Covers store c t'.rs (reads ++ [(w, x)]) := by
  obtain ⟨items, hitems, hrel⟩ := h
  obtain ⟨rs, hrs, ⟨-, -, hrw, -⟩ | ⟨hfalse, -⟩ | ⟨-, -, sz, rfl⟩⟩ := Tx.addToReadset_cases hadd
  · simp [hro] at hrw
  · cases hfalse
  · obtain rfl : items = rs := by simpa [hitems] using hrs
    exact ⟨_, rfl, List.rel_append hrel (.cons hrec .nil)⟩

theorem PostSoFar.record {t t' : Tx V} {i : Nat} {prev : List Int} {values : List V} {w : Word}
    {v : Int} {x : V} {reallocOk : Bool} (h : PostSoFar store log c t.rs i prev values)
    (hro : t.isRo = true) (hword : log.words[i]? = some w) (hvalue : values[i]? = some x)
    (hadd : t.addToReadset w v reallocOk = .next (true, t'))
    (hrec : Recorded store c ⟨v, some w⟩ (w, x)) :
    PostSoFar store log c t'.rs (i + 1) prev values := by
  refine ⟨?_, h.own_length, h.values_length, h.copied⟩
  rw [List.take_add_one, zip_getElem? hword hvalue, Option.toList_some, ← List.append_assoc]
  exact h.covers.add hro hadd hrec

/-- A value for every word of the range. -/
theorem PostSoFar.value {rs : Option (List RsItem)} {i : Nat} {prev : List Int} {values : List V}
    {w : Word} (h : PostSoFar store log c rs i prev values) (hword : log.words[i]? = some w) :
    ∃ x v : _, values[i]? = some x ∧ prev[i]? = some ((v : Nat) : Int) ∧ store.Copied w v x := by
  obtain ⟨hi, -⟩ := List.getElem?_eq_some_iff.mp hword
  have hvalue := List.getElem?_eq_getElem (h.values_length.symm ▸ hi)
  obtain ⟨v, hv, hcopied⟩ := h.copied i w _ hword hvalue
  exact ⟨_, v, hvalue, hv, hcopied⟩

/-- Every record that has been looked up again shows at the new version. -/
theorem PostSoFar.extend {rs : List RsItem} {i k next : Nat} {prev : List Int} {values : List V}
    (h : PostSoFar store log c (some rs) i prev values) (hle : c ≤ next) (hk : rs[k]? = none)
    (hdone : ∀ (j : Nat) e, j < k → (log.reads ++ (log.words.zip values).take i)[j]? = some e →
      store.Shows (fun _ => 0) next e.1 e.2) :
    PostSoFar store log next (some rs) i prev values := by
  obtain ⟨items, hitems, hrel⟩ := h.covers
  obtain rfl := Option.some.inj hitems
  refine ⟨⟨rs, rfl, ?_⟩, h.own_length, h.values_length, h.copied⟩
  rw [List.forall₂_iff_get] at hrel ⊢
  obtain ⟨hsame, hrel⟩ := hrel
  refine ⟨hsame, fun j hj hj' => ?_⟩
  obtain ⟨v, hitem, hv, hcopied, -⟩ := hrel j hj hj'
  have hjk : j < k := hj.trans_le (List.getElem?_eq_none_iff.mp hk)
  exact ⟨v, hitem, hv.trans hle, hcopied, hdone j _ hjk (List.getElem?_eq_getElem hj')⟩

omit [Zero V] in
theorem exists_values {target : List (Option V)} (h : target.all Option.isSome = true) :
    ∃ values : List V, target = values.map some := by
  induction target with
  | nil => exact ⟨[], rfl⟩
  | cons head target ih =>
      rw [List.all_cons, Bool.and_eq_true] at h
      obtain ⟨x, rfl⟩ := Option.isSome_iff_exists.mp h.1
      obtain ⟨values, rfl⟩ := ih h.2
      exact ⟨x :: values, rfl⟩

namespace RoPc.Sound

variable {t t' : Tx V} {rs : Option (List RsItem)} {i k : Nat} {prev : List Int}
  {target : List (Option V)} {w : Word} {versionRead nextRv : Int}

theorem pre (h : (RoPc.pre i prev).Sound store log c rs) (hw : WordsInv s store)
    (hword : log.words[i]? = some w) (hread : vlReadVersion (s.tm.lock w) ≠ -1) :
    (RoPc.pre (i + 1) (prev ++ [vlReadVersion (s.tm.lock w)])).Sound store log c rs := by
  obtain ⟨hcovers, hown, hprev, hversions⟩ := h
  obtain ⟨-, hversion⟩ := hw.readVersion_eq hread
  refine ⟨hcovers, hown, by simp [hprev], fun j w' hj hw' => ?_⟩
  rcases Nat.lt_succ_iff_lt_or_eq.mp hj with hj | rfl
  · obtain ⟨v, hv, hle⟩ := hversions j w' hj hw'
    exact ⟨v, by rw [List.getElem?_append_left (by omega), hv], hle⟩
  · obtain rfl : w = w' := Option.some.inj (hword.symm.trans hw')
    exact ⟨store.version w, by simp [← hprev, hversion], le_rfl⟩

theorem preDone {n : Nat} (h : (RoPc.pre i prev).Sound store log c rs)
    (hall : log.words.length ≤ i) (hn : n = log.words.length) :
    (RoPc.copy prev (List.replicate n none)).Sound store log c rs := by
  obtain ⟨hcovers, hown, -, hversions⟩ := h
  refine ⟨hcovers, by simp [hown, List.countP_replicate], by simp [hn], fun j w hword => ?_⟩
  obtain ⟨hj, -⟩ := List.getElem?_eq_some_iff.mp hword
  obtain ⟨v, hv, hle⟩ := hversions j w (by omega) hword
  exact ⟨v, hv, hle, fun x hx => by simp [List.getElem?_replicate] at hx⟩

/-- A word is copied whose version was read before. -/
theorem copied (h : (RoPc.copy prev target).Sound store log c rs) (hw : WordsInv s store)
    (hk : target[k]? = some none) (hword : log.words[k]? = some w) :
    (RoPc.copy prev (target.set k (some (s.tm.data w)))).Sound store
      { log with own := log.own ++ [false] } c rs := by
  obtain ⟨hcovers, hown, hlength, hversions⟩ := h
  obtain ⟨hk', hget⟩ := List.getElem?_eq_some_iff.mp hk
  refine ⟨hcovers, ?_, List.length_set.trans hlength, fun j w' hj => ?_⟩
  · simp [List.countP_set hk', hget, hown]
  · obtain ⟨v, hv, hle, hcopied⟩ := hversions j w' hj
    refine ⟨v, hv, hle, fun x hx => ?_⟩
    by_cases heq : j = k
    · subst heq
      obtain rfl : w = w' := Option.some.inj (hword.symm.trans hj)
      obtain rfl : s.tm.data w = x := by simpa [hk'] using hx
      rw [hw.data]
      exact Store.copied_cell hle
    · exact hcopied x (by rwa [List.getElem?_set_ne (Ne.symm heq)] at hx)

theorem copyDone (h : (RoPc.copy prev target).Sound store log c rs)
    (hall : target.all Option.isSome = true) : (RoPc.post 0 prev target).Sound store log c rs := by
  obtain ⟨hcovers, hown, hlength, hversions⟩ := h
  obtain ⟨values, rfl⟩ := exists_values hall
  refine ⟨values, rfl, ?_, hown.trans ?_, (List.length_map _).symm.trans hlength,
    fun j w x hword hx => ?_⟩
  · rw [List.take_zero, List.append_nil]
    exact hcovers
  · rw [List.countP_map, List.countP_eq_length.mpr (by simp)]
  · obtain ⟨v, hv, -, hcopied⟩ := hversions j w hword
    exact ⟨v, hv, hcopied x (by simp [hx])⟩

theorem done (h : (RoPc.post i prev target).Sound store log c rs) (hall : log.words.length ≤ i) :
    log.own.length = target.reduceOption.length ∧
      Covers store c rs (log.reads ++ log.words.zip target.reduceOption) := by
  obtain ⟨values, rfl, hpost⟩ := h
  have hcovers := hpost.covers
  have hvalues := hpost.values_length
  rw [List.take_of_length_le (by simp; omega)] at hcovers
  rw [reduceOption_map_some]
  exact ⟨hpost.own_length, hcovers⟩

theorem newer (h : (RoPc.post i prev target).Sound store log c rs)
    (hword : log.words[i]? = some w) (hread : prev[i]? = some versionRead) :
    (RoPc.loadClock i versionRead prev target).Sound store log c rs := by
  obtain ⟨values, rfl, hpost⟩ := h
  obtain ⟨x, v, hx, hv, hcopied⟩ := hpost.value hword
  rw [hv] at hread
  exact ⟨values, rfl, hpost, w, x, v, hword, hx, (Option.some.inj hread).symm, hcopied⟩

/-- A word whose version is unchanged, and not above that of the transaction. -/
theorem recorded {reallocOk : Bool} (h : (RoPc.post i prev target).Sound store log c t.rs)
    (hw : WordsInv s store) (hclock : c ≤ store.clock) (hro : t.isRo = true)
    (hword : log.words[i]? = some w) (hread : prev[i]? = some (vlReadVersion (s.tm.lock w)))
    (hold : vlReadVersion (s.tm.lock w) ≤ c)
    (hadd : t.addToReadset w (vlReadVersion (s.tm.lock w)) reallocOk = .next (true, t')) :
    (RoPc.post (i + 1) prev target).Sound store log c t'.rs := by
  obtain ⟨values, rfl, hpost⟩ := h
  obtain ⟨x, v, hx, hv, hcopied⟩ := hpost.value hword
  have hversion : vlReadVersion (s.tm.lock w) = v := by
    rw [hv] at hread
    exact (Option.some.inj hread).symm
  have hle : v ≤ c := by omega
  refine ⟨values, rfl, hpost.record hro hword hx hadd ⟨v, ?_, hle, hcopied, ?_⟩⟩
  · rw [hversion]
  · exact hw.confirm hcopied hversion hle hclock

theorem lt_of_loadClock (h : (RoPc.loadClock i versionRead prev target).Sound store log c rs) :
    i < log.words.length := by
  obtain ⟨_, _, _, _, _, _, hword, _⟩ := h
  exact (List.getElem?_eq_some_iff.mp hword).1

theorem lt_of_revalidate
    (h : (RoPc.revalidate i k versionRead nextRv prev target).Sound store log c rs) :
    i < log.words.length := by
  obtain ⟨_, _, _, _, _, _, _, ⟨_, _, hword, _⟩, _⟩ := h
  exact (List.getElem?_eq_some_iff.mp hword).1

/-- The clock is loaded while the last check is still true. -/
theorem clock (h : (RoPc.loadClock i versionRead prev target).Sound store log c rs)
    (hw : WordsInv s store) (hclock : c ≤ store.clock) (hword : log.words[i]? = some w)
    (hlock : s.tm.lock w / 2 = versionRead)
    (hearly : ∀ tid, w ∈ (s.thread tid).held → (s.thread tid).stage = .early) :
    (RoPc.revalidate i 0 versionRead s.tm.globalVersion prev target).Sound store log c rs := by
  obtain ⟨values, rfl, hpost, w', x, v, hword', hx, rfl, hcopied⟩ := h
  obtain rfl := Option.some.inj (hword.symm.trans hword')
  rw [hw.lock, lockWord_div] at hlock
  have hversion : store.version w = v := by exact_mod_cast hlock
  have hle : v ≤ store.clock := hversion ▸ hw.inv.version_le w
  have hopen : ∀ tid, store.owner w = some tid → store.stamp tid = none := by
    intro tid howner
    have hstage := hw.stage tid
    rw [hearly tid ((hw.held w tid).mp howner)] at hstage
    exact hstage.1
  exact ⟨values, rfl, hpost, store.clock, hw.clock, hclock, le_rfl, ⟨w, x, hword, hx, v, rfl, hle,
    hcopied, hcopied.confirm hw.inv hversion hopen hle le_rfl⟩, by simp⟩

/-- A record that is still current shows at the new version. -/
theorem revalidated {items : List RsItem} {version : Int}
    (h : (RoPc.revalidate i k versionRead nextRv prev target).Sound store log c (some items))
    (hw : WordsInv s store) (hk : items[k]? = some ⟨version, some w⟩)
    (hread : vlReadVersion (s.tm.lock w) = version) :
    (RoPc.revalidate i (k + 1) versionRead nextRv prev target).Sound store log c (some items) := by
  obtain ⟨values, rfl, hpost, next, hnext, hle, hbound, hcurrent, hdone⟩ := h
  refine ⟨values, rfl, hpost, next, hnext, hle, hbound, hcurrent, fun j e hj he => ?_⟩
  rcases Nat.lt_succ_iff_lt_or_eq.mp hj with hj | rfl
  · exact hdone j e hj he
  · obtain ⟨items', hitems, hrel⟩ := hpost.covers
    obtain rfl := Option.some.inj hitems
    obtain ⟨hjitem, hitem⟩ := List.getElem?_eq_some_iff.mp hk
    obtain ⟨hjread, hread'⟩ := List.getElem?_eq_some_iff.mp he
    obtain ⟨v, hv, hvc, hcopied, -⟩ := hrel.get hjitem hjread
    simp only [List.get_eq_getElem, hitem, hread', RsItem.mk.injEq, Option.some.injEq] at hv hcopied
    obtain ⟨hversion, rfl⟩ := hv
    exact hw.confirm hcopied (hread.trans hversion) (hvc.trans hle) hbound

/-- The transaction goes on at the new version. -/
theorem extended {items : List RsItem} {reallocOk : Bool}
    (h : (RoPc.revalidate i k versionRead nextRv prev target).Sound store log c t.rs)
    (hro : t.isRo = true) (hrs : t.rs = some items) (hk : items[k]? = none)
    (hword : log.words[i]? = some w)
    (hadd : { t with rv := nextRv }.addToReadset w versionRead reallocOk = .next (true, t')) :
    ∃ next : Nat, nextRv = next ∧ c ≤ next ∧ next ≤ store.clock ∧
      (∀ e ∈ log.reads, store.Shows (fun _ => 0) next e.1 e.2) ∧
        (RoPc.post (i + 1) prev target).Sound store log next t'.rs := by
  obtain ⟨values, rfl, hpost, next, hnext, hle, hbound, ⟨w', x, hword', hx, hrec⟩, hdone⟩ := h
  rw [hrs] at hpost
  have hextended := hpost.extend hle hk hdone
  rw [← hrs] at hextended
  obtain rfl : w = w' := Option.some.inj (hword.symm.trans hword')
  have hshows := fun e he => hextended.covers.shows (e := e) (List.mem_append_left _ he)
  have hrecorded := PostSoFar.record (t := { t with rv := nextRv }) hextended hro hword hx hadd hrec
  exact ⟨next, hnext, hle, hbound, hshows, values, rfl, hrecorded⟩

/-- One move of `ro_transaction_read`. -/
theorem step {call : RoCall} {pc : RoPc V} {event : Event V} {thread' : Thread V}
    (before : List Nat) (hw : WordsInv s store)
    (hextends : ∀ i versionRead prev target, pc = .loadClock i versionRead prev target →
      s.tm.lock ⟨call.seg, (call.startIdx + i).toNat⟩ / 2 = versionRead ∧
        ∀ tid, ⟨call.seg, (call.startIdx + i).toNat⟩ ∈ (s.thread tid).held →
          (s.thread tid).stage = .early)
    (hro : t.isRo = true) (hrv : t.rv = c) (hclock : c ≤ store.clock)
    (hlocks : CallWords call.seg call.startIdx call.numWords log.words)
    (hdata : CallWords call.seg call.firstWord call.words log.words)
    (hreads : ∀ e ∈ log.reads, store.Shows (fun _ => 0) c e.1 e.2) (h : pc.Sound store log c t.rs)
    (hmove : RoReadMove s.tm l.choice t call pc event thread') :
    ∃ c', c ≤ c' ∧ c' ≤ store.clock ∧ (∀ e ∈ log.reads, store.Shows (fun _ => 0) c' e.1 e.2) ∧
      thread'.RoSound store (log.next s.tm (.roReading t call pc) before event) c' := by
  have hlength := hlocks.length
  have hnum := hdata.length
  cases hmove with
  | preLocked | changed | stale | notRecorded | notExtended =>
      exact ⟨c, le_rfl, hclock, hreads, trivial⟩
  | pre hi hword hread =>
      exact ⟨c, le_rfl, hclock, hreads, hrv, hlocks, hdata,
        h.pre hw (hlocks.wordAt hi hword) hread⟩
  | preDone hi =>
      exact ⟨c, le_rfl, hclock, hreads, hrv, hlocks, hdata, h.preDone (by omega) (by omega)⟩
  | @copied k _ target hk =>
      have hlt := (List.getElem?_eq_some_iff.mp hk).1
      have htarget := h.2.2.1
      have hword := hdata.word k (by omega)
      have hindex : ((call.firstWord : Int) + k).toNat = call.firstWord + k := by omega
      rw [hindex] at hword
      exact ⟨c, le_rfl, hclock, hreads, hrv, hlocks, hdata, h.copied hw hk hword⟩
  | copyDone hall =>
      exact ⟨c, le_rfl, hclock, hreads, hrv, hlocks, hdata, h.copyDone hall⟩
  | done hi => exact ⟨c, le_rfl, hclock, hreads, hrv, h.done (by omega)⟩
  | newer hi hword hread _ =>
      exact ⟨c, le_rfl, hclock, hreads, hrv, hlocks, hdata,
        h.newer (hlocks.wordAt hi hword) hread⟩
  | recorded hi hword hread hold hadd =>
      exact ⟨c, le_rfl, hclock, hreads, (Tx.addToReadset_eq hadd).2.1.trans hrv, hlocks, hdata,
        h.recorded hw hclock hro (hlocks.wordAt hi hword) hread (hrv ▸ hold) hadd⟩
  | clock =>
      obtain ⟨hlock, hearly⟩ := hextends _ _ _ _ rfl
      exact ⟨c, le_rfl, hclock, hreads, hrv, hlocks, hdata,
        h.clock hw hclock (hlocks.word _ h.lt_of_loadClock) hlock hearly⟩
  | revalidated hrs hk _ hread =>
      rw [hrs] at h
      refine ⟨c, le_rfl, hclock, hreads, hrv, hlocks, hdata, ?_⟩
      rw [hrs]
      exact h.revalidated hw hk hread
  | extended hrs hk hword hadd =>
      have hi := h.lt_of_revalidate
      obtain ⟨next, rfl, hle, hbound, hshows, hpost⟩ :=
        h.extended hro hrs hk (hlocks.wordAt (by omega) hword) hadd
      exact ⟨next, hle, hbound, hshows, (Tx.addToReadset_eq hadd).2.1, hlocks, hdata, hpost⟩

end RoPc.Sound

/-- A move that leaves the version, the read set and the reads as they are. -/
theorem TxLog.RoSnapshot.keep {thread thread' : Thread V} (h : log.RoSnapshot store thread)
    (hro : log'.isRo = log.isRo) (hsampled : log'.sampled = log.sampled)
    (hentries : log'.entries = log.entries)
    (hsound : ∀ c, thread.RoSound store log c → thread'.RoSound store log' c) :
    log'.RoSnapshot store thread' := by
  intro hro'
  obtain ⟨c, hle, hclock, hreads, hcall⟩ := h (hro ▸ hro')
  refine ⟨c, hsampled ▸ hle, hclock, fun e he => hreads e ?_, hsound c hcall⟩
  rwa [TxLog.reads, hentries] at he

omit [Zero V] in
theorem TxLog.reads_append {entries : List (Entry V)} :
    TxLog.reads { log with entries := log.entries ++ entries } =
      log.reads ++ entries.filterMap Entry.read? := by
  simp [TxLog.reads]

/-- What is returned to the client joins the reads. -/
theorem TxLog.RoSnapshot.answer {r : Ret V} {t : Tx V}
    (h : log.RoSnapshot store (.returning r (some t))) :
    TxLog.RoSnapshot store (.live t) { log with entries := log.entries ++ log.answered r } := by
  intro hro
  obtain ⟨c, hle, hclock, -, hsound⟩ := h hro
  have hcovers : t.rv = c ∧
      Covers store c t.rs (log.reads ++ (log.answered r).filterMap Entry.read?) := by
    cases r with
    | read target =>
        cases target with
        | none => simpa [Thread.RoSound, TxLog.answered] using hsound
        | some values =>
            obtain ⟨hrv, hown, hcovers⟩ := hsound
            exact ⟨hrv, by rwa [TxLog.answered, Entry.filterMap_reads hown]⟩
    | write ok =>
        cases ok with
        | false => simpa [Thread.RoSound, TxLog.answered] using hsound
        | true => simpa [Thread.RoSound, TxLog.answered, Entry.filterMap_writes] using hsound
    | _ => simpa [Thread.RoSound, TxLog.answered] using hsound
  rw [← TxLog.reads_append] at hcovers
  exact ⟨c, hle, hclock, fun e he => hcovers.2.shows he, hcovers⟩

/-- **One step of a thread** keeps its read-only snapshot. -/
theorem TxLog.RoSnapshot.mover (hw : WordsInv s store) (hmode : (s.thread l.tid).Mode)
    (hanswers : (s.thread l.tid).Answers) (hfits : RoReadsFit s l) (hextends : ExtendsSafely s l)
    (hmove : ThreadMove platform s.tm l.choice (s.thread l.tid) l.event (s'.thread l.tid))
    (before : List Nat) (hfollows : log.Follows store (s.thread l.tid))
    (h : log.RoSnapshot store (s.thread l.tid)) :
    (log.next s.tm (s.thread l.tid) before l.event).RoSnapshot store (s'.thread l.tid) := by
  unfold RoReadsFit at hfits
  unfold ExtendsSafely at hextends
  generalize s.thread l.tid = thread, l.event = event, s'.thread l.tid = thread' at *
  cases hmove with
  | start => exact fun _ =>
      ⟨0, le_rfl, Nat.zero_le _, by simp [TxLog.next, TxLog.start, TxLog.reads], trivial⟩
  | @call t event thread' hcall =>
      cases hcall with
      | roRead hrange hro hread =>
          obtain ⟨hlocks, hdata⟩ :=
            roTransactionReadCall_words hrange (hfits t _ _ rfl hro rfl) hread
          exact h.keep rfl rfl rfl fun c hc => ⟨hc.1, hlocks, hdata, hc.2, rfl, rfl, by simp⟩
      | read hrange hrw | write hrange hrw =>
          have hro : log.isRo = false := (hfollows.mode t rfl).symm.trans hrw
          exact fun hro' => absurd (hro.symm.trans hro') (by decide)
      | alloc | free => exact h.keep rfl rfl rfl fun c hc => hc
      | finish => exact h.keep rfl rfl rfl fun c _ => trivial
  | @begin isRo pc event thread' hbegin =>
      obtain ⟨-, hempty⟩ := hfollows.fresh isRo pc rfl
      have hclock : s.tm.globalVersion.toNat = store.clock := by rw [hw.clock, Int.toNat_natCast]
      cases hbegin with
      | rdlock | noStruct => exact h.keep rfl rfl rfl fun c _ => trivial
      | noSets =>
          exact fun _ => ⟨store.clock, hclock.le, le_rfl, by simp [TxLog.next, TxLog.reads, hempty],
            trivial⟩
      | started =>
          refine fun _ =>
            ⟨store.clock, hclock.le, le_rfl, by simp [TxLog.next, TxLog.reads, hempty],
            hw.clock, [], rfl, ?_⟩
          simp [TxLog.next, TxLog.reads, hempty]
  | @roRead t call pc event thread' hread =>
      intro hro
      obtain ⟨c, hle, hclock, hreads, hrv, hlocks, hdata, hsound⟩ := h (hfollows.mode t rfl ▸ hmode)
      obtain ⟨c', hle', hclock', hreads', hcall⟩ := hsound.step before hw
        (fun i v prev target heq => hextends t call i v prev target (by rw [heq])) hmode hrv hclock
        hlocks hdata hreads hread
      cases hread <;> exact ⟨c', hle.trans hle', hclock', hreads', hcall⟩
  | @read t c pc event thread' hread =>
      have hro : log.isRo = false := (hfollows.mode t rfl).symm.trans hmode
      cases hread <;> exact fun hro' => absurd (hro.symm.trans hro') (by decide)
  | @write t c i event thread' hwrite =>
      have hro : log.isRo = false := (hfollows.mode t rfl).symm.trans hmode
      cases hwrite <;> exact fun hro' => absurd (hro.symm.trans hro') (by decide)
  | alloc hmove => cases hmove <;> exact h.keep rfl rfl rfl fun c hc => hc
  | free hmove =>
      cases hmove with
      | first => exact h.keep rfl rfl rfl fun c _ => trivial
      | queued => exact h.keep rfl rfl rfl fun c hc => hc
  | finish hmove => cases hmove <;> exact h.keep rfl rfl rfl fun c _ => trivial
  | @cleanup t r =>
      refine h.keep rfl rfl rfl fun c _ => ?_
      cases r with
      | read target => cases target <;> trivial
      | _ => trivial
  | @retIdle r =>
      have hanswered : log.answered r = [] := TxLog.answered_of_not_continues hanswers.symm
      refine h.keep rfl rfl ?_ fun c _ => trivial
      simp [TxLog.next, hanswered]
  | retLive => exact h.answer

end Step

/-! ### Runs -/

section Runs

variable [Zero V] [DecidableEq Tid] {platform : Platform V} {s s' : State Tid V} {l : Label Tid V}
  {store : Store Tid Word V} {hist : History Tid V}

structure ReadOnlyInv (s : State Tid V) (store : Store Tid Word V) (hist : History Tid V) :
    Prop where
  current : ∀ tid, (hist.current tid).RoSnapshot store (s.thread tid)
  past : ∀ log ∈ hist.past, log.isRo = true → ∃ c, log.sampled ≤ c ∧ c ≤ store.clock ∧
    ∀ e ∈ log.reads, store.Shows (fun _ => 0) c e.1 e.2

omit [DecidableEq Tid] in
theorem ReadOnlyInv.init (s : State Tid V) :
    ReadOnlyInv s (Store.start fun _ => 0) (History.start Tid V) := by
  refine ⟨fun tid hro => ?_, by simp [History.start]⟩
  cases hro

theorem ReadOnlyInv.step (hreach : (system Tid platform).Reachable s) (hw : WordsInv s store)
    (hfits : RoReadsFit s l) (hextends : ExtendsSafely s l)
    (hstep : (system Tid platform).step s l s') (hlogs : LogsInv s store hist)
    (h : ReadOnlyInv s store hist) :
    ReadOnlyInv s' (recordStore s l store) (recordHistory s l hist) := by
  have hlater := hw.later (threadWf hreach l.tid) hstep
  obtain ⟨hmove, -, hother⟩ := system_step_move hstep
  refine ⟨fun tid => ?_, fun log hlog hro => ?_⟩
  · by_cases heq : tid = l.tid
    · subst heq
      have hmover := (h.current l.tid).mover hw (threadMode hreach l.tid)
        (threadAnswers hreach l.tid) hfits hextends hmove
        (hist.returned.filterMap TxLog.version) (hlogs l.tid)
      simpa [recordHistory] using hmover.later hlater
    · rw [hother tid heq]
      simpa [recordHistory, heq] using (h.current tid).later hlater
  · have hold : ∃ c, log.sampled ≤ c ∧ c ≤ store.clock ∧
        ∀ e ∈ log.reads, store.Shows (fun _ => 0) c e.1 e.2 := by
      rcases mem_past_recordHistory hlog with hpast | rfl
      · exact h.past log hpast hro
      · obtain ⟨c, hle, hclock, hreads, -⟩ := h.current l.tid hro
        exact ⟨c, hle, hclock, hreads⟩
    obtain ⟨c, hle, hclock, hreads⟩ := hold
    exact ⟨c, hle, hclock.trans hlater.clock_le, fun e he => hlater.shows _ _ _ (hreads e he)⟩

end Runs

end TransactionalMemory
