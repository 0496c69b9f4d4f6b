import LinearNats.Store.Mem

/-! What the totals of a subject still say about its messages while their first or last sequence is
stale, and that looking for them gives the exact ones back. -/
namespace LinearNats.Store
open Server Scan List

def seqsOf (msgs : List StoreMsg) (subj : Bytes) : Finset Nat :=
  ((msgs.filter (fun sm => sm.subj = subj)).map (·.seq)).toFinset

theorem mem_seqsOf {msgs : List StoreMsg} {subj : Bytes} {n : Nat} :
    n ∈ seqsOf msgs subj ↔ ∃ sm ∈ msgs, sm.subj = subj ∧ sm.seq = n := by
  simp [seqsOf, and_assoc]

def Sorted (msgs : List StoreMsg) : Prop := msgs.Pairwise (fun a b => a.seq < b.seq)

section Messages

variable {msgs : List StoreMsg} {sm : StoreMsg} {subj : Bytes} {n : Nat}

theorem Sorted.unique (sorted : Sorted msgs) {a b : StoreMsg} (ha : a ∈ msgs) (hb : b ∈ msgs)
    (same : a.seq = b.seq) : a = b := by
  have keys : (msgs.map StoreMsg.seq).Nodup := pairwise_map.mpr (sorted.imp ne_of_lt)
  exact inj_on_of_nodup_map keys ha hb same

theorem Sorted.nodup_msgs (sorted : Sorted msgs) : msgs.Nodup :=
  sorted.imp (fun order same => by simp [same] at order)

theorem load_mem (found : load msgs n = some sm) : sm ∈ msgs ∧ sm.seq = n := by
  have there := find?_some found
  exact ⟨mem_of_find?_eq_some found, by simpa using there⟩

theorem load_none (absent : load msgs n = none) : ∀ sm ∈ msgs, sm.seq ≠ n := by
  intro sm inside
  simpa using (find?_eq_none.mp absent) sm inside

theorem Sorted.load (sorted : Sorted msgs) (inside : sm ∈ msgs) :
    load msgs sm.seq = some sm := by
  cases found : Store.load msgs sm.seq with
  | none => exact absurd rfl (load_none found sm inside)
  | some other =>
    obtain ⟨there, same⟩ := load_mem found
    rw [sorted.unique there inside same]

theorem stored_iff : stored msgs n = true ↔ ∃ sm ∈ msgs, sm.seq = n := by
  constructor
  · intro there
    obtain ⟨sm, found⟩ := Option.isSome_iff_exists.mp there
    exact ⟨sm, load_mem found⟩
  · rintro ⟨sm, inside, rfl⟩
    cases found : load msgs sm.seq with
    | none => exact absurd rfl (load_none found sm inside)
    | some other => simp [stored, found]

theorem Sorted.has_iff (sorted : Sorted msgs) : has msgs subj n = true ↔ n ∈ seqsOf msgs subj := by
  rw [mem_seqsOf, has, Option.any_eq_true]
  constructor
  · rintro ⟨sm, found, same⟩
    exact ⟨sm, (load_mem found).1, by simpa using same, (load_mem found).2⟩
  · rintro ⟨sm, inside, same, rfl⟩
    exact ⟨sm, sorted.load inside, by simpa using same⟩

theorem mem_delete : sm ∈ delete msgs n ↔ sm ∈ msgs ∧ sm.seq ≠ n := by
  simp [delete]

theorem Sorted.delete (sorted : Sorted msgs) (n : Nat) : Sorted (delete msgs n) :=
  List.Pairwise.filter _ sorted

theorem load_delete {m : Nat} (other : m ≠ n) :
    load (Store.delete msgs n) m = Store.load msgs m := by
  rw [Store.load, Store.delete, find?_filter, Store.load]
  congr 1
  funext sm
  by_cases here : sm.seq = m
  · simp [here, other]
  · simp [here]

theorem stored_delete {m : Nat} :
    stored (Store.delete msgs n) m = true ↔ m ≠ n ∧ stored msgs m = true := by
  rw [stored_iff, stored_iff]
  constructor
  · rintro ⟨sm, inside, rfl⟩
    exact ⟨(mem_delete.mp inside).2, sm, (mem_delete.mp inside).1, rfl⟩
  · rintro ⟨other, sm, inside, rfl⟩
    exact ⟨sm, mem_delete.mpr ⟨inside, other⟩, rfl⟩

theorem stored_delete_false {m : Nat} :
    stored (Store.delete msgs n) m = false ↔ m = n ∨ stored msgs m = false := by
  rw [Bool.eq_false_iff, ne_eq, stored_delete, Bool.eq_false_iff]
  tauto

theorem Sorted.perm_delete (sorted : Sorted msgs) (inside : sm ∈ msgs) :
    msgs.Perm (sm :: Store.delete msgs sm.seq) := by
  have split := (filter_append_perm (fun a => a.seq != sm.seq) msgs).symm
  have single : msgs.filter (fun a => !(a.seq != sm.seq)) = [sm] := by
    have same : ∀ a ∈ msgs, (!(a.seq != sm.seq)) = decide (a = sm) := by
      intro a there
      by_cases equal : a = sm
      · simp [equal]
      · have different : a.seq ≠ sm.seq := fun h => equal (sorted.unique there inside h)
        simp [equal, different]
    rw [filter_congr same]
    rw [filter_eq, count_eq_one_of_mem sorted.nodup_msgs inside, replicate_one]
  rw [single] at split
  exact split.trans perm_append_comm

theorem seqsOf_delete : seqsOf (delete msgs n) subj = (seqsOf msgs subj).erase n := by
  ext m
  rw [Finset.mem_erase, mem_seqsOf, mem_seqsOf]
  constructor
  · rintro ⟨sm, inside, same, rfl⟩
    exact ⟨(mem_delete.mp inside).2, sm, (mem_delete.mp inside).1, same, rfl⟩
  · rintro ⟨other, sm, inside, same, rfl⟩
    exact ⟨sm, mem_delete.mpr ⟨inside, other⟩, same, rfl⟩

theorem seqsOf_delete_other (found : load msgs n = some sm) (other : sm.subj ≠ subj)
    (sorted : Sorted msgs) : seqsOf (delete msgs n) subj = seqsOf msgs subj := by
  rw [seqsOf_delete, Finset.erase_eq_self]
  intro inside
  obtain ⟨sm', there, same, at_n⟩ := mem_seqsOf.mp inside
  have equal := sorted.unique there (load_mem found).1 (at_n.trans (load_mem found).2.symm)
  exact other (equal ▸ same)

theorem delete_above (above : ∀ sm ∈ msgs, sm.seq < n) : delete msgs n = msgs := by
  rw [delete, filter_eq_self]
  intro sm inside
  simpa using ne_of_lt (above sm inside)

theorem stored_append :
    stored (msgs ++ [sm]) n = true ↔ stored msgs n = true ∨ n = sm.seq := by
  simp [stored_iff, or_and_right, exists_or, eq_comm (a := n)]

theorem stored_append_false :
    stored (msgs ++ [sm]) n = false ↔ stored msgs n = false ∧ n ≠ sm.seq := by
  rw [Bool.eq_false_iff, ne_eq, stored_append, Bool.eq_false_iff]
  tauto

theorem seqsOf_append : seqsOf (msgs ++ [sm]) subj =
    if sm.subj = subj then insert sm.seq (seqsOf msgs subj) else seqsOf msgs subj := by
  simp only [seqsOf, filter_append, map_append, toFinset_append]
  split
  next same => simp [same]
  next other => simp [other]

end Messages

/-- The totals of a subject with the sequences `S`. A stale bound is strictly outside. -/
structure Totals (S : Finset Nat) (ss : SimpleState) : Prop where
  count : ss.msgs = S.card
  nonempty : S.Nonempty
  first : ss.firstNeedsUpdate = false → IsLeast (S : Set Nat) ss.first
  firstStale : ss.firstNeedsUpdate = true → ∀ n ∈ S, ss.first < n
  last : ss.lastNeedsUpdate = false → IsGreatest (S : Set Nat) ss.last
  lastStale : ss.lastNeedsUpdate = true → ∀ n ∈ S, n < ss.last

structure UpToDate (S : Finset Nat) (ss : SimpleState) : Prop where
  count : ss.msgs = S.card
  firstFresh : ss.firstNeedsUpdate = false
  lastFresh : ss.lastNeedsUpdate = false
  first : IsLeast (S : Set Nat) ss.first
  last : IsGreatest (S : Set Nat) ss.last

theorem UpToDate.totals {S : Finset Nat} {ss : SimpleState} (h : UpToDate S ss) : Totals S ss where
  count := h.count
  nonempty := ⟨ss.first, h.first.1⟩
  first _ := h.first
  firstStale stale := by rw [h.firstFresh] at stale; cases stale
  last _ := h.last
  lastStale stale := by rw [h.lastFresh] at stale; cases stale

theorem bounds_of_single {S : Finset Nat} {n : Nat} (single : S.card = 1) (inside : n ∈ S) :
    IsLeast (S : Set Nat) n ∧ IsGreatest (S : Set Nat) n := by
  obtain ⟨only, rfl⟩ := Finset.card_eq_one.mp single
  obtain rfl := Finset.mem_singleton.mp inside
  simp [IsLeast, IsGreatest]

namespace Totals

variable {S : Finset Nat} {ss : SimpleState} {n : Nat}

theorem first_le (h : Totals S ss) (inside : n ∈ S) : ss.first ≤ n := by
  cases stale : ss.firstNeedsUpdate with
  | false => exact (h.first stale).2 inside
  | true => exact le_of_lt (h.firstStale stale n inside)

theorem le_last (h : Totals S ss) (inside : n ∈ S) : n ≤ ss.last := by
  cases stale : ss.lastNeedsUpdate with
  | false => exact (h.last stale).2 inside
  | true => exact le_of_lt (h.lastStale stale n inside)

theorem drop (h : Totals S ss) (inside : n ∈ S) (more : ss.msgs ≠ 1) :
    Totals (S.erase n) (ss.drop n) := by
  have left : (S.erase n).card = ss.msgs - 1 := by rw [Finset.card_erase_of_mem inside, h.count]
  have nonempty : (S.erase n).Nonempty := by
    have some := Finset.card_pos.mpr h.nonempty
    have count := h.count
    rw [← Finset.card_pos, left]
    omega
  rw [SimpleState.drop]
  split
  next one =>
    -- The last sequence is exact and stays, so it is the only one left.
    have bounds := bounds_of_single (left.trans one.1)
      (Finset.mem_erase.mpr ⟨one.2.2.symm, (h.last one.2.1).1⟩)
    apply UpToDate.totals
    exact ⟨left.symm, rfl, one.2.1, bounds.1, bounds.2⟩
  split
  next one =>
    have bounds := bounds_of_single (left.trans one.1)
      (Finset.mem_erase.mpr ⟨one.2.2.symm, (h.first one.2.1).1⟩)
    apply UpToDate.totals
    exact ⟨left.symm, one.2.1, rfl, bounds.1, bounds.2⟩
  refine ⟨left.symm, nonempty, ?_, ?_, ?_, ?_⟩
  · intro fresh
    obtain ⟨other, fresh⟩ : ¬ n = ss.first ∧ ss.firstNeedsUpdate = false := by
      simpa using fresh
    refine ⟨Finset.mem_erase.mpr ⟨Ne.symm other, (h.first fresh).1⟩, ?_⟩
    intro m there
    exact (h.first fresh).2 (Finset.mem_of_mem_erase there)
  · intro stale m there
    obtain ⟨different, member⟩ := Finset.mem_erase.mp there
    have above := h.first_le member
    change ss.first < m
    rcases (by simpa using stale : n = ss.first ∨ ss.firstNeedsUpdate = true) with same | stale
    · omega
    · exact h.firstStale stale m member
  · intro fresh
    obtain ⟨other, fresh⟩ : ¬ n = ss.last ∧ ss.lastNeedsUpdate = false := by
      simpa using fresh
    refine ⟨Finset.mem_erase.mpr ⟨Ne.symm other, (h.last fresh).1⟩, ?_⟩
    intro m there
    exact (h.last fresh).2 (Finset.mem_of_mem_erase there)
  · intro stale m there
    obtain ⟨different, member⟩ := Finset.mem_erase.mp there
    have below := h.le_last member
    change m < ss.last
    rcases (by simpa using stale : n = ss.last ∨ ss.lastNeedsUpdate = true) with same | stale
    · omega
    · exact h.lastStale stale m member

theorem extend (h : Totals S ss) (above : ∀ m ∈ S, m < n) :
    Totals (insert n S) { ss with msgs := ss.msgs + 1, last := n, lastNeedsUpdate := false } where
  count := by
    have new : n ∉ S := fun inside => lt_irrefl n (above n inside)
    rw [Finset.card_insert_of_notMem new, h.count]
  nonempty := ⟨n, Finset.mem_insert_self n S⟩
  first fresh := by
    have least := h.first fresh
    refine ⟨Finset.mem_insert_of_mem least.1, ?_⟩
    intro m there
    rcases Finset.mem_insert.mp there with rfl | old
    · exact le_of_lt (above _ least.1)
    · exact least.2 old
  firstStale stale := by
    intro m there
    rcases Finset.mem_insert.mp there with rfl | old
    · obtain ⟨k, inside⟩ := h.nonempty
      exact lt_trans (h.firstStale stale k inside) (above k inside)
    · exact h.firstStale stale m old
  last _ := by
    refine ⟨Finset.mem_insert_self n S, ?_⟩
    intro m there
    rcases Finset.mem_insert.mp there with rfl | old
    · exact le_refl _
    · exact le_of_lt (above m old)
  lastStale stale := by cases stale

/-- What the two scans need to know about the store: it holds the sequences `S` of the subject
between its first and its last sequence. -/
structure Scans (ms : MemStore) (subj : Bytes) (S : Finset Nat) : Prop where
  has : ∀ m, has ms.msgs subj m = true ↔ m ∈ (S : Set Nat)
  low : ∀ m ∈ S, ms.firstSeq ≤ m
  high : ∀ m ∈ S, m ≤ ms.lastSeq
  word : ms.lastSeq < 2 ^ 64

variable {ms : MemStore} {subj : Bytes}

theorem exists_least (nonempty : S.Nonempty) : ∃ m, IsLeast (S : Set Nat) m :=
  ⟨_, S.isLeast_min' nonempty⟩

theorem exists_greatest (nonempty : S.Nonempty) : ∃ m, IsGreatest (S : Set Nat) m :=
  ⟨_, S.isGreatest_max' nonempty⟩

theorem recalculateFirst (h : Totals S ss) (scans : Scans ms subj S) :
    Totals S (ms.recalculateFirst subj ss) ∧
      (ms.recalculateFirst subj ss).firstNeedsUpdate = false := by
  rw [MemStore.recalculateFirst]
  split
  next stale =>
    obtain ⟨least, isLeast⟩ := exists_least h.nonempty
    have above := h.firstStale stale least isLeast.1
    have fits : ss.first + 1 < 2 ^ 64 := by
      have := scans.high least isLeast.1
      have := scans.word
      omega
    have low : max (u64 (ss.first + 1)) ms.firstSeq ≤ least := by
      rw [u64_of_lt fits]
      exact max_le above (scans.low least isLeast.1)
    rw [firstIn_least isLeast low (h.le_last isLeast.1) scans.has]
    dsimp only
    split
    · rename_i one
      have bounds := bounds_of_single (h.count.symm.trans one) isLeast.1
      refine ⟨?_, rfl⟩
      apply UpToDate.totals
      exact ⟨h.count, rfl, rfl, bounds.1, bounds.2⟩
    · refine ⟨⟨h.count, h.nonempty, fun _ => isLeast, ?_, h.last, h.lastStale⟩, rfl⟩
      intro found
      cases found
  next fresh => exact ⟨h, by simpa using fresh⟩

theorem recalculateLast (h : Totals S ss) (scans : Scans ms subj S)
    (fresh : ss.firstNeedsUpdate = false) : UpToDate S (ms.recalculateLast subj ss) := by
  rw [MemStore.recalculateLast]
  split
  next stale =>
    obtain ⟨greatest, isGreatest⟩ := exists_greatest h.nonempty
    have below := h.lastStale stale greatest isGreatest.1
    have high : greatest ≤ min (ss.last - 1) ms.lastSeq :=
      le_min (by omega) (scans.high greatest isGreatest.1)
    rw [lastIn_greatest isGreatest (h.first_le isGreatest.1) high scans.has]
    dsimp only
    split
    · rename_i one
      have bounds := bounds_of_single (h.count.symm.trans one) isGreatest.1
      exact ⟨h.count, rfl, rfl, bounds.1, bounds.2⟩
    · exact ⟨h.count, fresh, rfl, h.first fresh, isGreatest⟩
  next exact =>
    have lastFresh : ss.lastNeedsUpdate = false := by simpa using exact
    exact ⟨h.count, fresh, lastFresh, h.first fresh, h.last lastFresh⟩

theorem recalculateForSubj (h : Totals S ss) (scans : Scans ms subj S) :
    UpToDate S (ms.recalculateForSubj subj ss) :=
  (h.recalculateFirst scans).1.recalculateLast scans (h.recalculateFirst scans).2

end Totals
end LinearNats.Store
