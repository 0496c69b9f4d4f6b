import LinearNats.Counting
import LinearNats.Store.Pending
import LinearNats.Store.Runs
import LinearNats.Sublist.Matching

/-! The filtered state of all messages of the memory store. What a filter stands for is said token
by token; what the store reads for it is what the walk over its tree visits. -/
namespace LinearNats.Store
open Server Scan Counting List MemStore Table

variable {ms : MemStore} {isMatch : Bytes → Bool}

theorem between_perm (sorted : Sorted ms.msgs) (lo hi : Nat) :
    (ms.between lo hi).Perm (ms.msgs.filter (fun sm => lo ≤ sm.seq && sm.seq < hi)) := by
  have nodup : (ms.between lo hi).Nodup := by
    refine List.Nodup.filterMap ?_ nodup_range'
    intro a b sm at_a at_b
    rw [← (load_mem at_a).2, ← (load_mem at_b).2]
  rw [perm_ext_iff_of_nodup nodup (sorted.nodup_msgs.filter _)]
  intro sm
  simp only [between, mem_filterMap, mem_range'_1, mem_filter, Bool.and_eq_true, decide_eq_true_eq]
  constructor
  · rintro ⟨n, bounds, found⟩
    obtain ⟨inside, rfl⟩ := load_mem found
    exact ⟨inside, by omega, by omega⟩
  · rintro ⟨inside, low, high⟩
    exact ⟨sm.seq, by omega, sorted.load inside⟩

/-! ### The tally over the totals of the subjects -/

/-- What a tally over the totals `es` has collected if none of them begins before the start. -/
structure Tallied (es : List SimpleState) (t : Tally) : Prop where
  msgs : t.msgs = (es.map SimpleState.msgs).sum
  whole : t.havePartial = false
  last : ∀ e ∈ es, e.last ≤ t.last
  first : ∀ e ∈ es, 0 < t.first ∧ t.first ≤ e.first
  firstOf : t.first = 0 ∨ ∃ e ∈ es, e.first = t.first

theorem Tallied.update {es : List SimpleState} {t : Tally} {e : SimpleState} (h : Tallied es t)
    (positive : 0 < e.first) : Tallied (es ++ [e]) (t.update false e) where
  msgs := by simp [Tally.update, h.msgs]
  whole := h.whole
  last := by
    simp only [Tally.update]
    refine forall_mem_append.mpr ⟨fun a inside => ?_, forall_mem_singleton.mpr ?_⟩
    · have := h.last a inside
      split <;> omega
    · split <;> omega
  first := by
    simp only [Tally.update, Bool.false_eq_true, if_false]
    refine forall_mem_append.mpr ⟨fun a inside => ?_, forall_mem_singleton.mpr ?_⟩
    · have := h.first a inside
      split <;> omega
    · split <;> omega
  firstOf := by
    simp only [Tally.update, Bool.false_eq_true, if_false]
    right
    split
    · exact ⟨e, by simp, rfl⟩
    · obtain ⟨a, inside, same⟩ := h.firstOf.resolve_left (by omega)
      exact ⟨a, mem_append_left _ inside, same⟩

theorem Tallied.foldl {s : Nat} (es : List SimpleState)
    (good : ∀ e ∈ es, 0 < e.first ∧ s ≤ e.first) :
    Tallied es (es.foldl (Tally.visit s false) .zero) := by
  induction es using List.reverseRecOn with
  | nil => constructor <;> simp [Tally.zero]
  | append_singleton es e ih =>
    obtain ⟨positive, late⟩ := good e (by simp)
    rw [foldl_append, foldl_cons, foldl_nil, Tally.visit, if_pos late]
    exact (ih (fun a inside => good a (mem_append_left _ inside))).update positive

theorem Tallied.isLeast {es : List SimpleState} {t : Tally} (h : Tallied es t) (some_ : es ≠ []) :
    IsLeast {n | ∃ e ∈ es, e.first = n} t.first := by
  refine ⟨h.firstOf.resolve_left ?_, fun n ⟨e, inside, same⟩ => same ▸ (h.first e inside).2⟩
  obtain ⟨e, inside⟩ := exists_mem_of_ne_nil es some_
  exact ne_of_gt (h.first e inside).1

/-! ### The totals brought up to date -/

theorem Consistent.upToDate (h : Consistent ms) {subj : Bytes} {ss : SimpleState}
    (entry : Table.get ms.fss subj = some ss) :
    UpToDate (seqsOf ms.msgs subj) (ms.upToDate subj ss) := by
  obtain ⟨_, _, exact⟩ := h.refresh entry
  rw [MemStore.refresh] at exact
  rw [MemStore.upToDate]
  split at exact
  next stale => rwa [if_pos stale]
  next fresh => rwa [if_neg fresh]

theorem get_refreshMatching (ms : MemStore) (isMatch : Bytes → Bool) (subj : Bytes) :
    Table.get (ms.refreshMatching isMatch).fss subj =
      (Table.get ms.fss subj).map (fun ss => if isMatch subj then ms.upToDate subj ss else ss) :=
  get_map ms.fss (fun subj ss => if isMatch subj then ms.upToDate subj ss else ss) subj

theorem Consistent.refreshMatching (h : Consistent ms) (isMatch : Bytes → Bool) :
    Consistent (ms.refreshMatching isMatch) := by
  refine { h with index := ⟨?_, ?_, ?_⟩ }
  · have same : (ms.refreshMatching isMatch).fss.map Prod.fst = ms.fss.map Prod.fst := by
      simp [MemStore.refreshMatching, Function.comp_def]
    rw [same]
    exact h.index.keys
  · intro subj ss found
    rw [get_refreshMatching] at found
    obtain ⟨old, entry, rfl⟩ := Option.map_eq_some_iff.mp found
    obtain ⟨tracked, totals⟩ := h.index.entry subj old entry
    refine ⟨tracked, ?_⟩
    split
    · exact (h.upToDate entry).totals
    · exact totals
  · intro subj tracked nonempty
    rw [get_refreshMatching, Option.isSome_map]
    exact h.index.present subj tracked nonempty

/-- Totals that are up to date, of all subjects with a message that matches. -/
structure Entries (msgs : List StoreMsg) (isMatch : Bytes → Bool) (ps : SubjectTree) : Prop where
  keys : (ps.map Prod.fst).Nodup
  entry : ∀ p ∈ ps, isMatch p.1 = true ∧ UpToDate (seqsOf msgs p.1) p.2
  covers : ∀ sm ∈ msgs, isMatch sm.subj = true → ∃ ss, (sm.subj, ss) ∈ ps

theorem Consistent.entries (h : Consistent ms)
    (tracked : ∀ sm ∈ ms.msgs, isMatch sm.subj = true → Tracked sm.subj) :
    Entries ms.msgs isMatch
      ((ms.refreshMatching isMatch).fss.filter (fun (subj, _) => isMatch subj)) := by
  have fresh := h.refreshMatching isMatch
  refine ⟨fresh.index.keys.sublist (filter_sublist.map _), ?_, fun sm inside good => ?_⟩
  · rintro ⟨subj, ss⟩ inside
    obtain ⟨there, good⟩ := mem_filter.mp inside
    have found := get_of_mem fresh.index.keys there
    rw [get_refreshMatching] at found
    obtain ⟨old, entry, rfl⟩ := Option.map_eq_some_iff.mp found
    have good : isMatch subj = true := good
    exact ⟨good, by simpa only [good, if_true] using h.upToDate entry⟩
  · obtain ⟨ss, entry⟩ := fresh.entry_of_mem inside (tracked sm inside good)
    exact ⟨ss, mem_filter.mpr ⟨mem_of_get entry, good⟩⟩

namespace Entries

variable {msgs : List StoreMsg} {ps : SubjectTree} (h : Entries msgs isMatch ps)

include h

theorem sum_msgs (sorted : Sorted msgs) :
    ((ps.map Prod.snd).map SimpleState.msgs).sum = msgs.countP (fun sm => isMatch sm.subj) := by
  have counted := sum_count_keys StoreMsg.subj msgs h.keys
  rw [map_map] at counted ⊢
  refine Eq.trans (congrArg List.sum (map_congr_left (fun p inside => ?_)))
    (counted.trans (countP_congr (fun sm inside => ?_)))
  · simp only [Function.comp_apply, (h.entry p inside).2.count, sorted.card_seqsOf]
  · simp only [decide_eq_true_eq]
    constructor
    · intro key
      obtain ⟨p, there, same⟩ := mem_map.mp key
      exact same ▸ (h.entry p there).1
    · intro good
      obtain ⟨ss, there⟩ := h.covers sm inside good
      exact mem_map.mpr ⟨_, there, rfl⟩

/-- The totals of a matching message's subject. -/
theorem of_mem {sm : StoreMsg} (inside : sm ∈ msgs) (good : isMatch sm.subj = true) :
    ∃ e ∈ ps.map Prod.snd, e.first ≤ sm.seq ∧ sm.seq ≤ e.last := by
  obtain ⟨ss, there⟩ := h.covers sm inside good
  have exact := (h.entry _ there).2
  have member := mem_seqsOf.mpr ⟨sm, inside, rfl, rfl⟩
  exact ⟨ss, mem_map.mpr ⟨_, there, rfl⟩, exact.first.2 member, exact.last.2 member⟩

/-- The first message of a subject with totals. -/
theorem first_mem {e : SimpleState} (inside : e ∈ ps.map Prod.snd) :
    ∃ sm ∈ msgs, isMatch sm.subj = true ∧ sm.seq = e.first := by
  obtain ⟨⟨subj, ss⟩, there, rfl⟩ := mem_map.mp inside
  obtain ⟨good, exact⟩ := h.entry _ there
  obtain ⟨sm, member, same, at_first⟩ := mem_seqsOf.mp exact.first.1
  exact ⟨sm, member, same ▸ good, at_first⟩

end Entries

/-! ### The filtered state -/

/-- What a filter stands for: its tokens match those of the subject one by one. -/
def filterMatches (filter subj : Bytes) : Bool :=
  decide (Sublists.FilterMatches (orAll filter) subj)

theorem filterMatches_all {filter : Bytes} (all : filter = [] ∨ filter = fwcs) (subj : Bytes) :
    filterMatches filter subj = true := by
  have full : orAll filter = fwcs := by
    rw [orAll]
    split
    · rfl
    · exact all.resolve_left ‹_›
  have keys : Sublists.keys fwcs = [.fwc] := by decide
  obtain ⟨t, ts, split⟩ := exists_cons_of_ne_nil (Sublists.tokens_ne_nil subj)
  rw [filterMatches, full, decide_eq_true_eq, Sublists.FilterMatches, keys, split,
    Sublists.fwc_covers]

/-- What the filtered state of all messages says: their number, a first sequence that is the least
one and a last sequence none is above. -/
structure WholeState (ms : MemStore) (filter : Bytes) (isMatch : Bytes → Bool)
    (r : MemStore × SimpleState) : Prop where
  consistent : Consistent r.1
  frame : r.1 = { ms with fss := r.1.fss }
  keys : ∀ subj, (Table.get r.1.fss subj).isSome = (Table.get ms.fss subj).isSome
  number : r.2.msgs = ms.msgs.countP (fun sm => isMatch sm.subj)
  first : ∀ sm ∈ ms.msgs, isMatch sm.subj = true →
    IsLeast {n | ∃ sm ∈ ms.msgs, isMatch sm.subj = true ∧ sm.seq = n} r.2.first
  last : ∀ sm ∈ ms.msgs, isMatch sm.subj = true → sm.seq ≤ r.2.last
  absent : ¬ (filter = [] ∨ filter = fwcs) →
    (∀ sm ∈ ms.msgs, isMatch sm.subj = false) → r.2.first = 0

theorem WholeState.congr {filter : Bytes} {other : Bytes → Bool} {r : MemStore × SimpleState}
    (whole : WholeState ms filter isMatch r)
    (same : ∀ sm ∈ ms.msgs, isMatch sm.subj = other sm.subj) : WholeState ms filter other r where
  consistent := whole.consistent
  frame := whole.frame
  keys := whole.keys
  number := whole.number.trans (countP_congr (fun sm inside => by rw [same sm inside]))
  first sm inside good := by
    have least := whole.first sm inside ((same sm inside).trans good)
    have set_eq : {n | ∃ sm ∈ ms.msgs, isMatch sm.subj = true ∧ sm.seq = n} =
        {n | ∃ sm ∈ ms.msgs, other sm.subj = true ∧ sm.seq = n} := by
      ext n
      refine exists_congr (fun sm => and_congr_right (fun inside => ?_))
      rw [same sm inside]
    rwa [set_eq] at least
  last sm inside good := whole.last sm inside ((same sm inside).trans good)
  absent part none := whole.absent part (fun sm inside => (same sm inside).trans (none sm inside))

section

variable (h : Consistent ms) {s : Nat} (start : ∀ sm ∈ ms.msgs, s ≤ sm.seq) (iter : List StoreMsg)
  (filter : Bytes)

include h start

/-- From the totals of the visited subjects. -/
theorem filteredFrom_whole {visited : Bytes → Bool}
    (tracked : ∀ sm ∈ ms.msgs, visited sm.subj = true → Tracked sm.subj) :
    WholeState ms filter visited (ms.filteredFrom visited isMatch iter s false) := by
  have entries := h.entries tracked
  have tallied : Tallied _ ((ms.refreshMatching visited).tally visited false s) :=
    .foldl _ (fun e inside => by
      obtain ⟨sm, there, _, same⟩ := entries.first_mem inside
      exact same ▸ ⟨h.positive sm there, start sm there⟩)
  rw [filteredFrom, if_neg (by rw [tallied.whole]; exact Bool.false_ne_true)]
  refine ⟨h.refreshMatching visited, rfl, fun subj => ?_, ?_, ?_, ?_, ?_⟩
  · rw [get_refreshMatching, Option.isSome_map]
  · exact tallied.msgs.trans (entries.sum_msgs h.sorted)
  · intro sm inside good
    obtain ⟨e, there, _⟩ := entries.of_mem inside good
    obtain ⟨⟨first, member, same⟩, below⟩ := tallied.isLeast (ne_nil_of_mem there)
    obtain ⟨other, stored_, good', at_first⟩ := entries.first_mem member
    refine ⟨⟨other, stored_, good', at_first.trans same⟩, ?_⟩
    rintro n ⟨sm, inside, good, rfl⟩
    obtain ⟨e, there, low, _⟩ := entries.of_mem inside good
    exact le_trans (below ⟨e, there, rfl⟩) low
  · intro sm inside good
    obtain ⟨e, there, _, high⟩ := entries.of_mem inside good
    exact le_trans high (tallied.last e there)
  · intro _ none
    refine tallied.firstOf.resolve_right ?_
    rintro ⟨e, there, _⟩
    obtain ⟨sm, inside, good, _⟩ := entries.first_mem there
    rw [none sm inside] at good
    cases good

/-- The subjects that a filtered state of all messages takes for those of the filter. -/
def treeReads (tree : FssTree) (filter subj : Bytes) : Bool :=
  decide (filter = [] ∨ filter = fwcs) || tree.visits (orAll filter) subj

theorem filteredState_whole {tree : FssTree} (spans : Spans tree ms.fss) :
    WholeState ms filter (treeReads tree filter) (ms.filteredState tree iter s filter) := by
  rw [filteredState, filteredStateLocked]
  generalize clamp : (if s < ms.firstSeq then ms.firstSeq else s) = from_
  have low : ∀ sm ∈ ms.msgs, from_ ≤ sm.seq := by
    intro sm inside
    have := start sm inside
    have := h.low sm inside
    split at clamp <;> omega
  dsimp only
  split
  next past =>
    have none : ∀ sm, sm ∉ ms.msgs := by
      intro sm inside
      have := low sm inside
      have := h.high sm inside
      omega
    refine ⟨h, rfl, fun _ => rfl, ?_, fun sm inside => absurd inside (none sm),
      fun sm inside => absurd inside (none sm), fun _ _ => rfl⟩
    rw [eq_comm, countP_eq_zero]
    exact fun sm inside => absurd inside (none sm)
  split
  next within all =>
    have everything : ∀ subj, treeReads tree filter subj = true := fun subj => by
      rw [treeReads, decide_eq_true all.1, Bool.true_or]
    refine ⟨h, rfl, fun _ => rfl, ?_, ?_, fun sm inside _ => h.high sm inside,
      fun some => absurd all.1 some⟩
    · simp only [Bool.false_eq_true, if_false, h.count]
      rw [eq_comm, countP_eq_length]
      exact fun sm _ => everything sm.subj
    · intro sm inside _
      obtain ⟨first, there, same⟩ := stored_iff.mp (h.first (ne_nil_of_mem inside))
      refine ⟨⟨first, there, everything _, same⟩, ?_⟩
      rintro n ⟨other, member, _, rfl⟩
      exact h.low other member
  next some =>
    refine (filteredFrom_whole h low iter filter
      (fun _ _ visited => h.index.tracked_of_visits spans visited)).congr (fun sm inside => ?_)
    -- With anything stored, a filter for everything has been answered above.
    have part : ¬ (filter = [] ∨ filter = fwcs) := by
      intro all
      obtain ⟨first, there, same⟩ := stored_iff.mp (h.first (ne_nil_of_mem inside))
      exact some ⟨all, same ▸ low first there⟩
    rw [treeReads, decide_eq_false part, Bool.false_or]

end

end LinearNats.Store
