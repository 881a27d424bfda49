import TransactionalMemory.Proof.Installed
import TransactionalMemory.Proof.Snapshot

/-!
# The write set of a transaction

The write set answers for every word what the transaction last wrote to it, and `tm_read` and
`tm_write` find an entry exactly where there is one: the bloom filter forgets nothing, and under the
transaction's hold an address and the word it names determine each other.
-/

namespace TransactionalMemory

open Concurrency

variable {V Tid : Type}

/-! ### Addresses and words -/

def Tm.NamesWord (tm : Tm V) (addr : Addr) (w : Word) : Prop :=
  ∃ seg, tm.InstalledAt (indexFromVa addr).toNat w.seg seg ∧ offsetFromVa addr = w.index * tm.align

def Tm.NamesRange (tm : Tm V) (addr : Addr) (words : List Word) : Prop :=
  ∀ (i : Nat) w, words[i]? = some w → tm.NamesWord (addr + BitVec.ofNat 64 (i * tm.align)) w

section Names

variable {tm tm' : Tm V} {addr addr' : Addr} {w w' : Word}

theorem Tm.NamesWord.word_eq (h : tm.NamesWord addr w) (h' : tm.NamesWord addr w')
    (hpos : 0 < tm.align) : w = w' := by
  obtain ⟨seg, ⟨hspot, -, -⟩, hoffset⟩ := h
  obtain ⟨seg', ⟨hspot', -, -⟩, hoffset'⟩ := h'
  have hseg : w.seg = w'.seg := by simpa [hspot] using hspot'
  have hindex : w.index = w'.index :=
    Nat.eq_of_mul_eq_mul_right hpos (hoffset.symm.trans hoffset')
  cases w
  cases w'
  simp_all

theorem Tm.NamesWord.addr_eq (h : tm.NamesWord addr w) (h' : tm.NamesWord addr' w)
    (htable : tm.TableInv) : addr = addr' := by
  obtain ⟨seg, ⟨hspot, -, -⟩, hoffset⟩ := h
  obtain ⟨seg', ⟨hspot', -, -⟩, hoffset'⟩ := h'
  have hindex := htable.segment_inj _ _ _ hspot hspot'
  exact addr_eq_of_index_offset (BitVec.eq_of_toNat_eq hindex) (hoffset.trans hoffset'.symm)

theorem Tm.NamesWord.keep (h : tm.NamesWord addr w) (halign : tm'.align = tm.align)
    (hkeep : ∀ spot g seg, tm.InstalledAt spot g seg → tm'.InstalledAt spot g seg) :
    tm'.NamesWord addr w := by
  obtain ⟨seg, hinst, hoffset⟩ := h
  exact ⟨seg, hkeep _ _ _ hinst, by rw [halign, hoffset]⟩

theorem Tm.NamesRange.keep {words : List Word} (h : tm.NamesRange addr words)
    (halign : tm'.align = tm.align)
    (hkeep : ∀ spot g seg, tm.InstalledAt spot g seg → tm'.InstalledAt spot g seg) :
    tm'.NamesRange addr words := by
  intro i w hw
  rw [halign]
  exact (h i w hw).keep halign hkeep

theorem namesRange_named {size : Nat} {g : SegId} (hpos : 0 < tm.align)
    (hrange : tm.range addr size = some g) (hend : offsetFromVa addr + size ≤ 2 ^ 48) :
    tm.NamesRange addr (tm.named addr size) := by
  intro i w hw
  obtain ⟨seg, hspot, hseg, hready, -, -, ⟨first, hfirst⟩, -⟩ := Tm.range_eq_some hrange
  have hi : i < size / tm.align := by
    have := (List.getElem?_eq_some_iff.mp hw).1
    simpa [Tm.named_eq hrange, Tm.wordsOf] using this
  obtain rfl : (⟨g, offsetFromVa addr / tm.align + i⟩ : Word) = w := by
    simpa [Tm.named_eq hrange, Tm.wordsOf, hi] using hw
  have hlt : offsetFromVa addr + i * tm.align < 2 ^ 48 := by
    have hmul := (Nat.mul_lt_mul_right hpos).mpr hi
    have := Nat.div_mul_le_self size tm.align
    omega
  refine ⟨seg, ⟨by rw [indexFromVa_add hlt]; exact hspot, hseg, hready⟩, ?_⟩
  rw [offsetFromVa_add hlt, hfirst, Nat.mul_div_cancel_left _ hpos, Nat.add_mul, Nat.mul_comm first]

end Names

/-! ### The lookup in the write set -/

section Lookup

variable {ws ws' : List (WsItem V)} {bit : Int → BitVec 64} {addr : Addr} {w : Word} {x : V}

def wsWrites (ws : List (WsItem V)) : List (Word × V) :=
  ws.map fun item => (item.rawAddr, item.value)

theorem wsWrites_keys : (wsWrites ws).map Prod.fst = ws.map WsItem.rawAddr := by
  simp [wsWrites]

theorem lookup_wsWrites_overwrite {item : WsItem V} (hnodup : (ws.map WsItem.rawAddr).Nodup)
    (hfind : (ws.find? fun item => item.addr = addr) = some item) :
    (fun w => (wsWrites (Tx.overwrite ws addr x)).lookup w) =
      Function.update (fun w => (wsWrites ws).lookup w) item.rawAddr (some x) := by
  induction ws with
  | nil => simp at hfind
  | cons head ws ih =>
      rw [List.map_cons, List.nodup_cons] at hnodup
      funext w
      by_cases haddr : head.addr = addr
      · obtain rfl : head = item := by simpa [haddr] using hfind
        by_cases hw : w = head.rawAddr
        · simp [Tx.overwrite, haddr, wsWrites, hw]
        · have hbeq : (w == head.rawAddr) = false := by simpa using hw
          simp [Tx.overwrite, haddr, wsWrites, List.lookup_cons, hbeq, hw]
      · have hfind' : (ws.find? fun item => item.addr = addr) = some item := by
          simpa [haddr] using hfind
        have hne : head.rawAddr ≠ item.rawAddr := fun heq =>
          hnodup.1 (heq ▸ List.mem_map_of_mem (List.mem_of_find?_eq_some hfind'))
        have hrest := congrFun (ih hnodup.2 hfind') w
        by_cases hw : w = head.rawAddr
        · subst hw
          simp [Tx.overwrite, haddr, wsWrites, hne]
        · have hbeq : (w == head.rawAddr) = false := by simpa using hw
          simpa [Tx.overwrite, haddr, wsWrites, List.lookup_cons, hbeq, Function.update_apply]
            using hrest

theorem lookup_wsWrites_append (hnew : (wsWrites ws).lookup w = none) :
    (fun w' => (wsWrites (ws ++ [⟨addr, x, w, w⟩])).lookup w') =
      Function.update (fun w' => (wsWrites ws).lookup w') w (some x) := by
  have happend : wsWrites (ws ++ [⟨addr, x, w, w⟩]) = wsWrites ws ++ [(w, x)] := by simp [wsWrites]
  funext w'
  rw [happend, List.lookup_append]
  by_cases heq : w' = w
  · subst heq
    rw [hnew]
    simp
  · have hbeq : (w' == w) = false := by simpa using heq
    simp [List.lookup_cons, hbeq, heq]

theorem map_rawAddr_overwrite :
    (Tx.overwrite ws addr x).map WsItem.rawAddr = ws.map WsItem.rawAddr := by
  induction ws with
  | nil => rfl
  | cons head ws ih =>
      rw [Tx.overwrite]
      split
      · rfl
      · rw [List.map_cons, ih, List.map_cons]

theorem mem_eraseLock_of_ne {rs : List RsItem} {item : RsItem} (hmem : item ∈ rs)
    (hne : item.versionedLock ≠ some w) : item ∈ Tx.eraseLock rs w := by
  induction rs with
  | nil => cases hmem
  | cons head rs ih =>
      rw [Tx.eraseLock]
      rcases List.mem_cons.mp hmem with rfl | hmem
      · rw [if_neg hne]
        exact List.mem_cons_self
      · split
        · exact List.mem_cons_of_mem _ hmem
        · exact List.mem_cons_of_mem _ (ih hmem)

theorem lookup_wsWrites_perm (hnodup : (ws.map WsItem.rawAddr).Nodup) (hperm : ws'.Perm ws) :
    (fun w => (wsWrites ws').lookup w) = fun w => (wsWrites ws).lookup w := by
  have hperm' : (wsWrites ws').Perm (wsWrites ws) := hperm.map _
  have hnodup' : ((wsWrites ws').map Prod.fst).Nodup := by
    rw [wsWrites_keys]
    exact (hperm.map _).nodup_iff.mpr hnodup
  funext w
  cases hlookup : (wsWrites ws).lookup w with
  | none =>
      by_contra hsome
      rw [← ne_eq, lookup_ne_none_iff, (hperm'.map _).mem_iff, ← lookup_ne_none_iff] at hsome
      exact hsome hlookup
  | some x =>
      obtain ⟨before, after, hsplit, -⟩ := List.lookup_eq_some_iff.mp hlookup
      exact lookup_eq_of_mem hnodup' (hperm'.mem_iff.mpr (by simp [hsplit]))

end Lookup

/-! ### What the write set says -/

def lastWritten (entries : List (Entry V)) : Word → Option V := lastWrite (entries.map Entry.access)

/-- Reads are answered from the transaction's own writes exactly where there is one. -/
def Answered (entries : List (Entry V)) : Prop :=
  ∀ before w x own after, entries = before ++ .read w x own :: after →
    lastWritten before w = if own then some x else none

section Entries

variable {entries : List (Entry V)} {w : Word} {x : V} {own : Bool}

@[simp]
theorem lastWritten_nil : lastWritten ([] : List (Entry V)) = fun _ => none := rfl

@[simp]
theorem lastWritten_append_read :
    lastWritten (entries ++ [.read w x own]) = lastWritten entries := by
  simp [lastWritten, Entry.access]

@[simp]
theorem lastWritten_append_write :
    lastWritten (entries ++ [.write w x]) = Function.update (lastWritten entries) w (some x) := by
  simp [lastWritten, Entry.access]

theorem answered_nil : Answered ([] : List (Entry V)) := by
  intro before w x own after h
  simp at h

theorem Answered.concat (h : Answered entries) {e : Entry V}
    (he : ∀ w x own, e = .read w x own → lastWritten entries w = if own then some x else none) :
    Answered (entries ++ [e]) := by
  intro before w x own after hsplit
  rcases List.eq_nil_or_concat after with rfl | ⟨after, last, rfl⟩
  · obtain ⟨rfl, hlast⟩ := List.append_inj' hsplit rfl
    exact he w x own (by simpa using hlast)
  · rw [List.concat_eq_append, ← List.cons_append, ← List.append_assoc] at hsplit
    exact h before w x own after (List.append_inj' hsplit rfl).1

end Entries

structure Tx.Buffers (tm : Tm V) (bit : Int → BitVec 64) (t : Tx V) (view : List (Entry V)) :
    Prop where
  lookup : (fun w => (wsWrites t.ws).lookup w) = lastWritten view
  nodup : (t.ws.map WsItem.rawAddr).Nodup
  names : ∀ item ∈ t.ws, tm.NamesWord item.addr item.rawAddr
  bloom : ∀ item ∈ t.ws, bfIn bit t.wsBloom item.addr = true
  answered : Answered view
  /-- A word that was read is in the read set, unless it was written later. -/
  tracked : ∀ w x, .read w x false ∈ view →
    (∃ items item, t.rs = some items ∧ item ∈ items ∧ item.versionedLock = some w) ∨
      w ∈ t.ws.map WsItem.rawAddr

namespace Tx.Buffers

variable {tm tm' : Tm V} {bit : Int → BitVec 64} {t t' : Tx V} {view : List (Entry V)} {addr : Addr}
  {w : Word} {x : V} {item : WsItem V}

theorem keep (h : t.Buffers tm bit view) (halign : tm'.align = tm.align)
    (hkeep : ∀ spot g seg, tm.InstalledAt spot g seg → tm'.InstalledAt spot g seg) :
    t.Buffers tm' bit view :=
  { h with names := fun item hmem => (h.names item hmem).keep halign hkeep }

theorem lastWritten_of_mem (h : t.Buffers tm bit view) (hmem : item ∈ t.ws) :
    lastWritten view item.rawAddr = some item.value := by
  rw [← h.lookup]
  refine lookup_eq_of_mem ?_ (List.mem_map_of_mem hmem)
  rw [wsWrites_keys]
  exact h.nodup

theorem lastWritten_ne_none_iff (h : t.Buffers tm bit view) :
    lastWritten view w ≠ none ↔ w ∈ t.ws.map WsItem.rawAddr := by
  rw [← h.lookup, lookup_ne_none_iff, wsWrites_keys]

theorem of_hit (h : t.Buffers tm bit view) (hpos : 0 < tm.align) (hname : tm.NamesWord addr w)
    (hit : t.lookup bit addr = some item) :
    (t.ws.find? fun item => item.addr = addr) = some item ∧ item.rawAddr = w ∧
      lastWritten view w = some item.value := by
  unfold Tx.lookup at hit
  split at hit
  · have hmem := List.mem_of_find?_eq_some hit
    have haddr : item.addr = addr := by simpa using List.find?_some hit
    have hword : item.rawAddr = w := (h.names item hmem).word_eq (haddr.symm ▸ hname) hpos
    exact ⟨hit, hword, hword ▸ h.lastWritten_of_mem hmem⟩
  · cases hit

theorem of_miss (h : t.Buffers tm bit view) (htable : tm.TableInv) (hname : tm.NamesWord addr w)
    (hmiss : t.lookup bit addr = none) : lastWritten view w = none := by
  by_contra hsome
  obtain ⟨item, hmem, hword⟩ := List.mem_map.mp (h.lastWritten_ne_none_iff.mp hsome)
  have haddr : item.addr = addr := (h.names item hmem).addr_eq (hword.symm ▸ hname) htable
  have hbloom := h.bloom item hmem
  rw [haddr] at hbloom
  rw [Tx.lookup, if_pos hbloom, List.find?_eq_none] at hmiss
  exact hmiss item hmem (by simpa using haddr)

theorem read_own (h : t.Buffers tm bit view) (hlast : lastWritten view w = some x) :
    t.Buffers tm bit (view ++ [.read w x true]) := by
  refine { h with lookup := ?_, answered := ?_, tracked := ?_ }
  · rw [lastWritten_append_read]
    exact h.lookup
  · refine h.answered.concat fun w' x' own heq => ?_
    obtain ⟨rfl, rfl, rfl⟩ := Entry.read.inj heq
    exact hlast
  · intro w' x' hmem
    exact h.tracked w' x' (by simpa using hmem)

theorem read_region (h : t.Buffers tm bit view) (hrw : t.isRo = false)
    (hlast : lastWritten view w = none) {v : Int} {ok : Bool}
    (hadd : t.addToReadset w v true = .next (ok, t')) :
    t'.Buffers tm bit (view ++ [.read w x false]) := by
  have hanswered : Answered (view ++ [.read w x false]) := by
    refine h.answered.concat fun w' x' own heq => ?_
    obtain ⟨rfl, rfl, rfl⟩ := Entry.read.inj heq
    exact hlast
  obtain ⟨rs, hrs, ⟨-, rfl, -, item, hitem, hlock⟩ | ⟨-, hfalse, -⟩ | ⟨-, -, sz, rfl⟩⟩ :=
    Tx.addToReadset_cases hadd
  · refine { h with lookup := ?_, answered := hanswered, tracked := fun w' x' hmem => ?_ }
    · rw [lastWritten_append_read]
      exact h.lookup
    · rcases List.mem_append.mp hmem with hmem | hmem
      · exact h.tracked w' x' hmem
      · obtain ⟨rfl, -⟩ : w' = w ∧ x' = x := by simpa using hmem
        exact Or.inl ⟨rs, item, hrs, hitem, hlock⟩
  · cases hfalse
  · refine { h with lookup := ?_, answered := hanswered, tracked := fun w' x' hmem => ?_ }
    · rw [lastWritten_append_read]
      exact h.lookup
    · rcases List.mem_append.mp hmem with hmem | hmem
      · rcases h.tracked w' x' hmem with ⟨items, item, hitems, hitem, hlock⟩ | hws
        · obtain rfl : rs = items := by simpa [hrs] using hitems
          exact Or.inl ⟨_, item, rfl, List.mem_append_left _ hitem, hlock⟩
        · exact Or.inr hws
      · obtain ⟨rfl, -⟩ : w' = w ∧ x' = x := by simpa using hmem
        exact Or.inl ⟨_, ⟨v, some w'⟩, rfl, by simp, rfl⟩

theorem overwritten (h : t.Buffers tm bit view)
    (hfind : (t.ws.find? fun item => item.addr = addr) = some item) :
    Tx.Buffers tm bit { t with ws := Tx.overwrite t.ws addr x }
      (view ++ [.write item.rawAddr x]) := by
  refine ⟨?_, ?_, fun item' hmem => ?_, fun item' hmem => ?_, ?_, fun w' x' hmem => ?_⟩
  · rw [lastWritten_append_write, ← h.lookup]
    exact lookup_wsWrites_overwrite h.nodup hfind
  · simpa only [map_rawAddr_overwrite] using h.nodup
  · obtain ⟨item'', hmem', haddr, hraw, -⟩ := Tx.mem_overwrite hmem
    rw [haddr, hraw]
    exact h.names item'' hmem'
  · obtain ⟨item'', hmem', haddr, -, -⟩ := Tx.mem_overwrite hmem
    rw [haddr]
    exact h.bloom item'' hmem'
  · exact h.answered.concat fun _ _ _ heq => by cases heq
  · rw [map_rawAddr_overwrite]
    exact h.tracked w' x' (by simpa using hmem)

theorem appended (h : t.Buffers tm bit view) (hbit : ∀ pos, bit pos ≠ 0#64)
    (hname : tm.NamesWord addr w) (hlast : lastWritten view w = none) {reallocOk mallocOk : Bool}
    (happend : t.append bit addr x w reallocOk mallocOk = .next (some t')) :
    t'.Buffers tm bit (view ++ [.write w x]) := by
  obtain ⟨rs, sz, hrs, rfl⟩ := Tx.append_eq happend
  have hnew : w ∉ t.ws.map WsItem.rawAddr := by
    rw [← h.lastWritten_ne_none_iff, hlast]
    simp
  refine ⟨?_, ?_, fun item hmem => ?_, fun item hmem => ?_, ?_, fun w' x' hmem => ?_⟩
  · rw [lastWritten_append_write, ← h.lookup]
    exact lookup_wsWrites_append ((congrFun h.lookup w).trans hlast)
  · rw [List.map_append, List.nodup_append]
    refine ⟨h.nodup, by simp, fun w' hw' w'' hw'' heq => hnew ?_⟩
    obtain rfl : w'' = w := by simpa using hw''
    exact heq ▸ hw'
  · rcases List.mem_append.mp hmem with hmem | hmem
    · exact h.names item hmem
    · obtain rfl := List.mem_singleton.mp hmem
      exact hname
  · rcases List.mem_append.mp hmem with hmem | hmem
    · exact bfIn_bfAdd (h.bloom item hmem)
    · obtain rfl := List.mem_singleton.mp hmem
      exact bfIn_bfAdd_self hbit _ _
  · exact h.answered.concat fun _ _ _ heq => by cases heq
  · by_cases heq : w' = w
    · exact Or.inr (by simp [heq])
    · rcases h.tracked w' x' (by simpa using hmem) with ⟨items, item, hitems, hitem, hlock⟩ | hws
      · obtain rfl : rs = items := by simpa [hrs] using hitems
        refine Or.inl ⟨_, item, rfl, mem_eraseLock_of_ne hitem fun hlock' => heq ?_, hlock⟩
        simpa [hlock'] using hlock.symm
      · exact Or.inr (by simp only [List.map_append, List.mem_append]; exact Or.inl hws)

theorem sorted (h : t.Buffers tm bit view) {ws : List (WsItem V)} (hperm : ws.Perm t.ws) :
    Tx.Buffers tm bit { t with ws := ws } view := by
  have hkeys := hperm.map WsItem.rawAddr
  refine ⟨(lookup_wsWrites_perm h.nodup hperm).trans h.lookup, hkeys.nodup_iff.mpr h.nodup,
    fun item hmem => h.names item (hperm.mem_iff.mp hmem),
    fun item hmem => h.bloom item (hperm.mem_iff.mp hmem), h.answered, fun w' x' hmem => ?_⟩
  exact (h.tracked w' x' hmem).imp_right hkeys.mem_iff.mpr

end Tx.Buffers

end TransactionalMemory
