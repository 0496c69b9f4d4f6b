import LinearNats.Run
import LinearNats.Store.Totals
import LinearNats.Stree.Match

/-! Consistency of the memory store's four views of its messages, kept by every operation. -/
namespace LinearNats.Store
open Server Scan List MemStore Table

def Tracked (subj : Bytes) : Prop := subj ≠ [] ∧ noPivot ∉ subj

instance (subj : Bytes) : Decidable (Tracked subj) :=
  inferInstanceAs (Decidable (_ ∧ _))

/-- `tree` has an entry for the same subjects as `fss`. The totals that its entries point to are
those of `fss`, which change when they are brought up to date; a walk goes by the subjects only. -/
def Spans (tree : FssTree) (fss : SubjectTree) : Prop :=
  ∃ m, tree.Represents m ∧ ∀ subj, (Table.get m subj).isSome = (Table.get fss subj).isSome

theorem Spans.congr {tree : FssTree} {fss after : SubjectTree}
    (spans : Spans tree fss)
    (same : ∀ subj, (Table.get after subj).isSome = (Table.get fss subj).isSome) :
    Spans tree after := by
  obtain ⟨m, represents, keys⟩ := spans
  exact ⟨m, represents, fun subj => (keys subj).trans (same subj).symm⟩

/-- The tree holds the totals of exactly the tracked subjects with messages. -/
structure Indexed (msgs : List StoreMsg) (fss : SubjectTree) : Prop where
  keys : (fss.map Prod.fst).Nodup
  entry : ∀ subj ss, Table.get fss subj = some ss → Tracked subj ∧ Totals (seqsOf msgs subj) ss
  present : ∀ subj, Tracked subj → (seqsOf msgs subj).Nonempty → (Table.get fss subj).isSome

namespace Indexed

variable {msgs : List StoreMsg} {fss : SubjectTree} {subj : Bytes} {ss : SimpleState} {n : Nat}

theorem absent (h : Indexed msgs fss) (tracked : Tracked subj) (entry : Table.get fss subj = none) :
    seqsOf msgs subj = ∅ := by
  by_contra nonempty
  have there := h.present _ tracked (Finset.nonempty_iff_ne_empty.mpr nonempty)
  rw [entry] at there
  cases there

theorem empty : Indexed [] [] where
  keys := nodup_nil
  entry _ _ found := by cases found
  present _ _ nonempty := by
    obtain ⟨n, inside⟩ := nonempty
    cases inside

theorem set (h : Indexed msgs fss) {after : List StoreMsg} (tracked : Tracked subj)
    (totals : Totals (seqsOf after subj) ss)
    (others : ∀ other, subj ≠ other → seqsOf after other = seqsOf msgs other) :
    Indexed after (Table.set fss subj ss) where
  keys := keys_set h.keys subj ss
  entry other ss' found := by
    rw [get_set] at found
    split at found
    next same =>
      cases found
      exact same ▸ ⟨tracked, totals⟩
    next different =>
      rw [others other different]
      exact h.entry other ss' found
  present other tracked' nonempty := by
    rw [get_set]
    split
    · rfl
    next different =>
      rw [others other different] at nonempty
      exact h.present other tracked' nonempty

theorem removeSeqPerSubject (h : Indexed msgs fss) (sorted : Sorted msgs) {sm : StoreMsg}
    (found : load msgs n = some sm) :
    Indexed (delete msgs n) (removeSeqPerSubject fss sm.subj n) := by
  have inside : n ∈ seqsOf msgs sm.subj :=
    mem_seqsOf.mpr ⟨sm, (load_mem found).1, rfl, (load_mem found).2⟩
  have others : ∀ other, sm.subj ≠ other → seqsOf (delete msgs n) other = seqsOf msgs other :=
    fun other different => seqsOf_delete_other found different sorted
  rw [Store.removeSeqPerSubject]
  cases entry : Table.get fss sm.subj with
  | none =>
    -- Only an untracked subject has messages and no entry.
    have untracked : ¬ Tracked sm.subj := by
      intro tracked
      have some := h.present _ tracked ⟨n, inside⟩
      rw [entry] at some
      cases some
    refine ⟨h.keys, ?_, ?_⟩
    · intro other ss at_other
      have different : sm.subj ≠ other := by
        rintro rfl
        exact untracked (h.entry _ ss at_other).1
      rw [others other different]
      exact h.entry other ss at_other
    · intro other tracked nonempty
      have different : sm.subj ≠ other := by
        rintro rfl
        exact untracked tracked
      rw [others other different] at nonempty
      exact h.present other tracked nonempty
  | some ss =>
    obtain ⟨tracked, totals⟩ := h.entry _ ss entry
    dsimp only
    split
    next one =>
      have gone : seqsOf (delete msgs n) sm.subj = ∅ := by
        rw [seqsOf_delete, ← Finset.card_eq_zero, Finset.card_erase_of_mem inside,
          ← totals.count, one]
      refine ⟨keys_erase h.keys _, ?_, ?_⟩
      · intro other ss' at_other
        rw [get_erase] at at_other
        split at at_other
        · cases at_other
        · rename_i different
          rw [others other different]
          exact h.entry other ss' at_other
      · intro other tracked' nonempty
        rw [get_erase]
        split
        · rename_i same
          rw [← same, gone] at nonempty
          exact absurd nonempty Finset.not_nonempty_empty
        · rename_i different
          rw [others other different] at nonempty
          exact h.present other tracked' nonempty
    next more =>
      refine h.set tracked ?_ others
      rw [seqsOf_delete]
      exact totals.drop inside more

theorem tree (h : Indexed msgs fss) : ∃ t, Stree.treeOf fss = .ok t ∧ Spans t fss := by
  obtain ⟨t, built, represents⟩ := Stree.treeOf_represents h.keys (by
    rintro ⟨subj, ss⟩ inside
    exact (h.entry subj ss (get_of_mem h.keys inside)).1)
  exact ⟨t, built, fss, represents, fun _ => rfl⟩

theorem tracked_of_visits (h : Indexed msgs fss) {tree : FssTree}
    (spans : Spans tree fss) {filter : Bytes} (visited : tree.visits filter subj = true) :
    Tracked subj := by
  obtain ⟨⟨other, _⟩, inside, same⟩ := any_eq_true.mp visited
  obtain rfl : other = subj := by simpa using same
  obtain ⟨m, represents, keys⟩ := spans
  have there := keys other
  rw [represents.of_matched inside, Option.isSome_some] at there
  obtain ⟨ss, entry⟩ := Option.isSome_iff_exists.mp there.symm
  exact (h.entry other ss entry).1

end Indexed

def totalSize (msgs : List StoreMsg) : Nat := (msgs.map StoreMsg.size).sum

/-- The counters, the bounds, the deleted sequences and the tree agree with the messages. -/
structure Intact (ms : MemStore) : Prop where
  sorted : Sorted ms.msgs
  count : ms.stateMsgs = ms.msgs.length
  bytes : ms.stateBytes = totalSize ms.msgs
  positive : ∀ sm ∈ ms.msgs, 0 < sm.seq
  low : ∀ sm ∈ ms.msgs, ms.firstSeq ≤ sm.seq
  high : ∀ sm ∈ ms.msgs, sm.seq ≤ ms.lastSeq
  first : ms.msgs ≠ [] → stored ms.msgs ms.firstSeq = true
  gaps : ∀ n, n ∈ ms.dmap ↔
    ms.msgs ≠ [] ∧ ms.firstSeq ≤ n ∧ n ≤ ms.lastSeq ∧ stored ms.msgs n = false
  index : Indexed ms.msgs ms.fss

/-- And there is a sequence after the last one. -/
structure Consistent (ms : MemStore) : Prop extends Intact ms where
  room : ms.lastSeq + 1 < 2 ^ 64

namespace Intact

variable {ms : MemStore} {sm : StoreMsg} {n : Nat}

theorem bounds (h : Intact ms) (there : stored ms.msgs n = true) :
    ms.firstSeq ≤ n ∧ n ≤ ms.lastSeq := by
  obtain ⟨sm, inside, rfl⟩ := stored_iff.mp there
  exact ⟨h.low sm inside, h.high sm inside⟩

theorem entry_of_mem (h : Intact ms) (inside : sm ∈ ms.msgs) (tracked : Tracked sm.subj) :
    ∃ ss, Table.get ms.fss sm.subj = some ss := by
  have there : sm.seq ∈ seqsOf ms.msgs sm.subj := mem_seqsOf.mpr ⟨sm, inside, rfl, rfl⟩
  exact Option.isSome_iff_exists.mp (h.index.present sm.subj tracked ⟨_, there⟩)

theorem scans (h : Intact ms) (word : ms.lastSeq < 2 ^ 64) (subj : Bytes) :
    Totals.Scans ms subj (seqsOf ms.msgs subj) where
  has m := h.sorted.has_iff
  low m inside := by
    obtain ⟨sm, there, _, rfl⟩ := mem_seqsOf.mp inside
    exact h.low sm there
  high m inside := by
    obtain ⟨sm, there, _, rfl⟩ := mem_seqsOf.mp inside
    exact h.high sm there
  word := word

theorem refresh (h : Intact ms) (word : ms.lastSeq < 2 ^ 64) {subj : Bytes} {ss : SimpleState}
    (entry : Table.get ms.fss subj = some ss) :
    ∃ fss, (ms.refresh subj ss).1 = { ms with fss := fss } ∧ Indexed ms.msgs fss ∧
      UpToDate (seqsOf ms.msgs subj) (ms.refresh subj ss).2 := by
  obtain ⟨tracked, totals⟩ := h.index.entry subj ss entry
  rw [MemStore.refresh]
  split
  · have exact := totals.recalculateForSubj (h.scans word subj)
    exact ⟨_, rfl, h.index.set tracked exact.totals (fun _ _ => rfl), exact⟩
  next fresh =>
    obtain ⟨first, last⟩ : ss.firstNeedsUpdate = false ∧ ss.lastNeedsUpdate = false := by
      simpa using fresh
    exact ⟨_, rfl, h.index, totals.count, first, last, totals.first first, totals.last last⟩

end Intact

namespace Consistent

variable {ms : MemStore} {sm : StoreMsg} {n : Nat}

theorem word (h : Consistent ms) : ms.lastSeq < 2 ^ 64 := Nat.lt_of_succ_lt h.room

/-- The sum for the next sequence does not wrap. -/
theorem next (h : Consistent ms) : u64 (ms.lastSeq + 1) = ms.lastSeq + 1 := u64_of_lt h.room

theorem emptied (ms : MemStore) (first : Nat) {last : Nat} (room : last + 1 < 2 ^ 64) :
    Consistent (ms.emptied first last) where
  sorted := List.Pairwise.nil
  count := rfl
  bytes := rfl
  positive _ inside := by cases inside
  low _ inside := by cases inside
  high _ inside := by cases inside
  first nonempty := absurd rfl nonempty
  gaps n := by simp [MemStore.emptied]
  index := Indexed.empty
  room := room

theorem new (cfg : StreamConfig) : Consistent (newMemStore cfg) := by
  have fresh : Consistent ⟨cfg, cfg.maxMsgsPer, [], 0, 0, 0, 0, [], ∅⟩ :=
    emptied ⟨cfg, cfg.maxMsgsPer, [], 0, 0, 0, 0, [], ∅⟩ 0 (by decide)
  rw [newMemStore]
  split
  · simp only [purge]
    split
    · exact emptied _ _ (by decide)
    · split
      · exact fresh
      · have word := cfg.firstSeq.toNat_lt
        exact emptied _ _ (by omega)
  · exact fresh

theorem next_first (h : Consistent ms) (is_first : stored ms.msgs ms.firstSeq = true) {next : Nat}
    (scan : (firstIn (stored ms.msgs) (ms.firstSeq + 1) ms.lastSeq).getD (ms.lastSeq + 1) = next) :
    (∀ m, stored (delete ms.msgs ms.firstSeq) m = true → next ≤ m) ∧
      (delete ms.msgs ms.firstSeq ≠ [] → stored (delete ms.msgs ms.firstSeq) next = true) ∧
      ms.firstSeq < next ∧ (delete ms.msgs ms.firstSeq = [] → next = ms.lastSeq + 1) := by
  have order := (h.bounds is_first).2
  have above : ∀ m, stored (delete ms.msgs ms.firstSeq) m = true →
      ms.firstSeq + 1 ≤ m ∧ m ≤ ms.lastSeq ∧ stored ms.msgs m = true := by
    intro m there
    obtain ⟨other, stored⟩ := stored_delete.mp there
    have range := h.bounds stored
    exact ⟨by omega, range.2, stored⟩
  cases found : firstIn (stored ms.msgs) (ms.firstSeq + 1) ms.lastSeq with
  | none =>
    rw [found, Option.getD_none] at scan
    have gone : ∀ m, ¬ stored (delete ms.msgs ms.firstSeq) m = true := by
      intro m there
      obtain ⟨low, high, stored⟩ := above m there
      rw [firstIn_none.mp found m low high] at stored
      cases stored
    refine ⟨fun m there => absurd there (gone m), ?_, by omega, fun _ => scan.symm⟩
    intro nonempty
    obtain ⟨sm, inside⟩ := exists_mem_of_ne_nil _ nonempty
    exact absurd (stored_iff.mpr ⟨sm, inside, rfl⟩) (gone sm.seq)
  | some first =>
    rw [found, Option.getD_some] at scan
    subst scan
    obtain ⟨low, high, there, least⟩ := firstIn_some found
    have kept : stored (delete ms.msgs ms.firstSeq) first = true :=
      stored_delete.mpr ⟨by omega, there⟩
    refine ⟨?_, fun _ => kept, by omega, ?_⟩
    · intro m other
      obtain ⟨low', high', stored⟩ := above m other
      exact least m low' high' stored
    · intro nothing
      rw [nothing] at kept
      cases kept

theorem removeMsg (h : Consistent ms) (seq : Nat) : Consistent (ms.removeMsg seq).1 := by
  rw [MemStore.removeMsg]
  cases found : load ms.msgs seq with
  | none => exact h
  | some sm =>
    obtain ⟨inside, rfl⟩ := load_mem found
    have there : stored ms.msgs sm.seq = true := stored_iff.mpr ⟨sm, inside, rfl⟩
    have perm := h.sorted.perm_delete inside
    have length : ms.msgs.length = (delete ms.msgs sm.seq).length + 1 := perm.length_eq
    have size : totalSize ms.msgs = sm.size + totalSize (delete ms.msgs sm.seq) :=
      (perm.map StoreMsg.size).sum_eq
    have count := h.count
    have bytes := h.bytes
    have some : 0 < ms.stateMsgs := by omega
    simp only [some, if_true]
    have index := h.index.removeSeqPerSubject h.sorted found
    by_cases is_first : sm.seq = ms.firstSeq
    · rw [is_first] at there
      have fits : u64 (ms.firstSeq + 1) = ms.firstSeq + 1 := by
        have := (h.bounds there).2
        have := h.room
        exact u64_of_lt (by omega)
      simp only [updateFirstSeq, is_first, ne_eq, not_true_eq_false, if_false, fits, h.next]
      generalize scan :
        (firstIn (stored ms.msgs) (ms.firstSeq + 1) ms.lastSeq).getD (ms.lastSeq + 1) = next
      obtain ⟨least, kept, above, past⟩ := h.next_first there scan
      rw [is_first] at length size index
      refine ⟨⟨h.sorted.delete _, ?_, ?_, ?_, ?_, ?_, kept, ?_, index⟩, h.room⟩
      · change ms.stateMsgs - 1 = (delete ms.msgs ms.firstSeq).length
        omega
      · change ms.stateBytes - min sm.size ms.stateBytes =
          totalSize (delete ms.msgs ms.firstSeq)
        omega
      · exact fun a other => h.positive a (mem_delete.mp other).1
      · exact fun a other => least a.seq (stored_iff.mpr ⟨a, other, rfl⟩)
      · exact fun a other => h.high a (mem_delete.mp other).1
      · intro n
        change n ∈ insert ms.firstSeq ms.dmap \ Finset.Ico ms.firstSeq next ↔
          delete ms.msgs ms.firstSeq ≠ [] ∧ next ≤ n ∧ n ≤ ms.lastSeq ∧
            stored (delete ms.msgs ms.firstSeq) n = false
        rw [Finset.mem_sdiff, Finset.mem_insert, h.gaps, Finset.mem_Ico, stored_delete_false]
        constructor
        · rintro ⟨rfl | ⟨nonempty, low, high, gap⟩, outside⟩
          · omega
          · refine ⟨?_, by omega, high, .inr gap⟩
            intro nothing
            have := past nothing
            omega
        · rintro ⟨nonempty, low, high, rfl | gap⟩
          · omega
          · refine ⟨.inr ⟨ne_nil_of_mem inside, by omega, high, gap⟩, by omega⟩
    · simp only [updateFirstSeq, is_first, ne_eq, not_false_eq_true, if_true]
      have nonempty : ms.msgs ≠ [] := ne_nil_of_mem inside
      have kept : stored (delete ms.msgs sm.seq) ms.firstSeq = true :=
        stored_delete.mpr ⟨Ne.symm is_first, h.first nonempty⟩
      refine ⟨⟨h.sorted.delete _, ?_, ?_, ?_, ?_, ?_, fun _ => kept, ?_, index⟩, h.room⟩
      · change ms.stateMsgs - 1 = (delete ms.msgs sm.seq).length
        omega
      · change ms.stateBytes - min sm.size ms.stateBytes = totalSize (delete ms.msgs sm.seq)
        omega
      · exact fun a other => h.positive a (mem_delete.mp other).1
      · exact fun a other => h.low a (mem_delete.mp other).1
      · exact fun a other => h.high a (mem_delete.mp other).1
      · intro n
        change n ∈ insert sm.seq ms.dmap ↔ delete ms.msgs sm.seq ≠ [] ∧ ms.firstSeq ≤ n ∧
          n ≤ ms.lastSeq ∧ stored (delete ms.msgs sm.seq) n = false
        rw [Finset.mem_insert, h.gaps, stored_delete_false]
        have left : delete ms.msgs sm.seq ≠ [] := by
          intro nothing
          rw [nothing] at kept
          cases kept
        constructor
        · rintro (rfl | ⟨_, low, high, gap⟩)
          · exact ⟨left, h.low sm inside, h.high sm inside, .inl rfl⟩
          · exact ⟨left, low, high, .inr gap⟩
        · rintro ⟨_, low, high, same | gap⟩
          · exact .inl same
          · exact .inr ⟨nonempty, low, high, gap⟩

theorem removeMsg_stored (there : stored ms.msgs n = true) : (ms.removeMsg n).2 = true := by
  obtain ⟨sm, found⟩ := Option.isSome_iff_exists.mp there
  rw [MemStore.removeMsg, found]

theorem removeMsg_msgs (ms : MemStore) (n : Nat) :
    (ms.removeMsg n).1.msgs = delete ms.msgs n := by
  rw [MemStore.removeMsg]
  split
  next absent =>
    rw [delete, eq_comm, filter_eq_self]
    intro sm inside
    simpa using load_none absent sm inside
  · simp only [updateFirstSeq]
    split <;> split <;> rfl

theorem removeMsg_cfg (ms : MemStore) (n : Nat) : (ms.removeMsg n).1.cfg = ms.cfg := by
  rw [MemStore.removeMsg]
  split
  · rfl
  · simp only [updateFirstSeq]
    split <;> split <;> rfl

theorem removeMsg_lastSeq (ms : MemStore) (n : Nat) : (ms.removeMsg n).1.lastSeq = ms.lastSeq := by
  rw [MemStore.removeMsg]
  split
  · rfl
  · simp only [updateFirstSeq]
    split <;> split <;> rfl

theorem refresh (h : Consistent ms) {subj : Bytes} {ss : SimpleState}
    (entry : Table.get ms.fss subj = some ss) :
    Consistent (ms.refresh subj ss).1 ∧ (ms.refresh subj ss).1.msgs = ms.msgs ∧
      UpToDate (seqsOf ms.msgs subj) (ms.refresh subj ss).2 := by
  obtain ⟨fss, same, index, exact⟩ := h.toIntact.refresh h.word entry
  rw [same]
  exact ⟨{ h with index := index }, rfl, exact⟩

end Consistent

theorem checkDiscardNew_of_refresh {P : MemStore → Prop} {ms : MemStore} {subj hdr msg : Bytes}
    (holds : P ms) (refreshed : ∀ {ss}, Table.get ms.fss subj = some ss → P (ms.refresh subj ss).1) :
    P (ms.checkDiscardNew subj hdr msg).1 := by
  rw [checkDiscardNew]
  split
  · exact holds
  split
  · exact holds
  split
  · split
    · exact holds
    · split
      · exact holds
      next entry =>
        have refreshed := refreshed entry
        dsimp only
        split
        · exact refreshed
        · split <;> exact refreshed
  · exact holds

/-- A property that looking for the ends of a subject and removing a message keep. -/
structure Kept (P : MemStore → Prop) : Prop where
  refresh : ∀ {ms subj ss}, P ms → Table.get ms.fss subj = some ss → P (ms.refresh subj ss).1
  removeMsg : ∀ {ms}, P ms → ∀ seq, P (ms.removeMsg seq).1

namespace Kept

variable {P : MemStore → Prop} {ms left : MemStore}

section

variable (kept : Kept P) (holds : P ms)

include kept holds

theorem enforcePerSubjectLimit (subj : Bytes) (ss : SimpleState) :
    P (ms.enforcePerSubjectLimit subj ss) := by
  rw [MemStore.enforcePerSubjectLimit]
  split
  · exact holds
  rename_i limited
  clear limited
  generalize ss.msgs = fuel
  induction fuel generalizing ms with
  | zero => exact holds
  | succ fuel ih =>
    rw [enforcePerSubjectLimitFrom]
    split
    · exact holds
    rename_i ss entry
    split
    · exact holds
    have next := kept.removeMsg (kept.refresh holds entry) (ms.refresh subj ss).2.first
    rcases removed : (ms.refresh subj ss).1.removeMsg (ms.refresh subj ss).2.first with
      ⟨left, _ | _⟩
    · rw [removed] at next
      simpa only [removed] using next
    · rw [removed] at next
      simpa only [removed] using ih next

theorem deleteWhile (exceeds : MemStore → Bool) (fuel : Nat)
    (result : deleteWhile exceeds fuel ms = some left) : P left := by
  induction fuel generalizing ms with
  | zero =>
    cases result
    exact holds
  | succ fuel ih =>
    rw [deleteWhile] at result
    split at result
    · have next := kept.removeMsg holds ms.firstSeq
      rw [deleteFirstMsgOrPanic] at result
      rcases removed : ms.removeMsg ms.firstSeq with ⟨after, _ | _⟩
      · rw [removed] at result
        cases result
      · rw [removed] at result next
        exact ih next result
    · cases result
      exact holds

theorem enforceMsgLimit (result : ms.enforceMsgLimit = some left) : P left := by
  rw [MemStore.enforceMsgLimit] at result
  split at result
  · cases result
    exact holds
  · exact kept.deleteWhile holds _ _ result

theorem enforceBytesLimit (result : ms.enforceBytesLimit = some left) : P left := by
  rw [MemStore.enforceBytesLimit] at result
  split at result
  · cases result
    exact holds
  · exact kept.deleteWhile holds _ _ result

theorem checkDiscardNew (subj hdr msg : Bytes) : P (ms.checkDiscardNew subj hdr msg).1 :=
  checkDiscardNew_of_refresh holds (fun entry => kept.refresh holds entry)

end

end Kept

namespace Consistent

variable {ms : MemStore} {sm : StoreMsg} {n : Nat}

theorem kept : Kept Consistent where
  refresh h entry := (h.refresh entry).1
  removeMsg h seq := h.removeMsg seq

/-- The loop ends below the limit, and never looks for a first message in an empty store. -/
theorem deleteWhile (h : Consistent ms) (exceeds : MemStore → Bool)
    (nonempty : ∀ other, Consistent other → other.cfg = ms.cfg → exceeds other = true →
      other.msgs ≠ []) {fuel : Nat} (enough : ms.msgs.length < fuel) :
    ∃ left, deleteWhile exceeds fuel ms = some left ∧ exceeds left = false := by
  induction fuel generalizing ms with
  | zero => omega
  | succ fuel ih =>
    rw [deleteWhile]
    split
    next exceeded =>
      have stored_ := h.first (nonempty ms h rfl exceeded)
      have there := removeMsg_stored stored_
      have next := h.removeMsg ms.firstSeq
      have cfg := removeMsg_cfg ms ms.firstSeq
      have fewer : (ms.removeMsg ms.firstSeq).1.msgs.length < ms.msgs.length := by
        obtain ⟨sm, inside, same⟩ := stored_iff.mp stored_
        rw [removeMsg_msgs, ← same, (h.sorted.perm_delete inside).length_eq]
        exact Nat.lt_succ_self _
      rcases removed : ms.removeMsg ms.firstSeq with ⟨left, ok⟩
      rw [removed] at there next cfg fewer
      have deleted : ms.deleteFirstMsgOrPanic = some left := by
        rw [deleteFirstMsgOrPanic, removed]
        cases there
        rfl
      rw [deleted]
      exact ih next (fun other consistent same => nonempty other consistent (same.trans cfg))
        (by dsimp only at fewer; omega)
    next below => exact ⟨ms, rfl, by simpa using below⟩

/-- A positive limit is not exceeded by an empty store, so there is a first message to delete. -/
theorem enforce (h : Consistent ms) (limit : StreamConfig → Int) (amount : MemStore → Nat)
    (none_ : ∀ other, Consistent other → other.msgs = [] → amount other = 0)
    (positive : 0 < limit ms.cfg) : ∃ left, MemStore.deleteWhile
      (fun ms => limit ms.cfg < amount ms) (ms.stateMsgs + 1) ms = some left ∧
        ¬ limit left.cfg < amount left := by
  have enough : ms.msgs.length < ms.stateMsgs + 1 := by
    rw [h.count]
    exact Nat.lt_succ_self _
  have nonempty : ∀ other, Consistent other → other.cfg = ms.cfg →
      decide (limit other.cfg < amount other) = true → other.msgs ≠ [] := by
    intro other consistent cfg exceeded empty
    rw [decide_eq_true_eq, cfg, none_ other consistent empty] at exceeded
    exact absurd exceeded (by simpa using Int.le_of_lt positive)
  obtain ⟨left, result, below⟩ := h.deleteWhile _ nonempty enough
  exact ⟨left, result, by simpa using below⟩

theorem enforceMsgLimit (h : Consistent ms) : ∃ left, ms.enforceMsgLimit = some left ∧
    (ms.cfg.discard = .discardOld → 0 < ms.cfg.maxMsgs → ¬ left.cfg.maxMsgs < left.stateMsgs) := by
  rw [MemStore.enforceMsgLimit]
  split
  next off => exact ⟨ms, rfl, fun old limit => absurd off (by simp [old, Int.not_le.mpr limit])⟩
  rename_i limited
  obtain ⟨left, result, below⟩ := h.enforce StreamConfig.maxMsgs stateMsgs
    (fun other consistent empty => by rw [consistent.count, empty]; rfl) (by omega)
  exact ⟨left, result, fun _ _ => below⟩

theorem enforceBytesLimit (h : Consistent ms) : ∃ left, ms.enforceBytesLimit = some left ∧
    (ms.cfg.discard = .discardOld → 0 < ms.cfg.maxBytes →
      ¬ left.cfg.maxBytes < left.stateBytes) := by
  rw [MemStore.enforceBytesLimit]
  split
  next off => exact ⟨ms, rfl, fun old limit => absurd off (by simp [old, Int.not_le.mpr limit])⟩
  rename_i limited
  obtain ⟨left, result, below⟩ := h.enforce StreamConfig.maxBytes stateBytes
    (fun other consistent empty => by rw [consistent.bytes, empty]; rfl) (by omega)
  exact ⟨left, result, fun _ _ => below⟩

theorem addMsg (h : Consistent ms) (next : sm.seq = ms.lastSeq + 1) (room : sm.seq + 1 < 2 ^ 64)
    {fss : SubjectTree} (index : Indexed (ms.msgs ++ [sm]) fss) :
    Consistent { ms.addMsg sm with fss := fss } := by
  have above : ∀ a ∈ ms.msgs, a.seq < sm.seq := fun a inside => by
    have := h.high a inside
    omega
  have same : delete ms.msgs sm.seq = ms.msgs := delete_above above
  have member : ∀ a, a ∈ ms.msgs ++ [sm] ↔ a ∈ ms.msgs ∨ a = sm := by simp
  have sorted : Sorted (ms.msgs ++ [sm]) :=
    pairwise_append.mpr ⟨h.sorted, pairwise_singleton _ _, by simpa using above⟩
  have positive : ∀ a ∈ ms.msgs ++ [sm], 0 < a.seq := by
    intro a inside
    rcases (member a).mp inside with old | rfl
    · exact h.positive a old
    · omega
  have high : ∀ a ∈ ms.msgs ++ [sm], a.seq ≤ sm.seq := by
    intro a inside
    rcases (member a).mp inside with old | rfl
    · exact le_of_lt (above a old)
    · exact le_refl _
  have count : ms.stateMsgs + 1 = (ms.msgs ++ [sm]).length := by simp [h.count]
  have bytes : ms.stateBytes + sm.size = totalSize (ms.msgs ++ [sm]) := by
    simp [totalSize, h.bytes]
  simp only [MemStore.addMsg, same]
  by_cases empty : ms.msgs = []
  · have zero : ms.stateMsgs = 0 := by rw [h.count, empty, length_nil]
    have nothing : ∀ m, m ∉ ms.dmap := fun m inside => ((h.gaps m).mp inside).1 empty
    simp only [zero, if_true]
    rw [zero] at count
    refine ⟨⟨sorted, count, bytes, positive, ?_, high, fun _ => stored_append.mpr (.inr rfl), ?_,
      index⟩, room⟩
    · intro a inside
      simp only [empty, nil_append, mem_singleton] at inside
      rw [inside]
    · intro m
      change m ∈ ms.dmap ↔ ms.msgs ++ [sm] ≠ [] ∧ sm.seq ≤ m ∧ m ≤ sm.seq ∧
        stored (ms.msgs ++ [sm]) m = false
      refine iff_of_false (nothing m) ?_
      rintro ⟨_, low, high, gap⟩
      exact (stored_append_false.mp gap).2 (le_antisymm high low)
  have some : ms.stateMsgs ≠ 0 := by
    rw [h.count]
    exact fun zero => empty (length_eq_zero_iff.mp zero)
  simp only [some, if_false]
  have first := h.first empty
  have below := (h.bounds first).2
  refine ⟨⟨sorted, count, bytes, positive, ?_, high, fun _ => stored_append.mpr (.inl first), ?_,
    index⟩, room⟩
  · intro a inside
    rcases (member a).mp inside with old | rfl
    · exact h.low a old
    · change ms.firstSeq ≤ a.seq
      omega
  · intro m
    change m ∈ ms.dmap ↔ ms.msgs ++ [sm] ≠ [] ∧ ms.firstSeq ≤ m ∧ m ≤ sm.seq ∧
      stored (ms.msgs ++ [sm]) m = false
    rw [h.gaps, stored_append_false]
    constructor
    · rintro ⟨_, low, high, gap⟩
      exact ⟨by simp, low, by omega, gap, by omega⟩
    · rintro ⟨_, low, high, gap, other⟩
      exact ⟨empty, low, by omega, gap⟩

end Consistent

theorem Indexed.untracked {msgs : List StoreMsg} {fss : SubjectTree} {sm : StoreMsg}
    (h : Indexed msgs fss) (untracked : ¬ Tracked sm.subj) : Indexed (msgs ++ [sm]) fss where
  keys := h.keys
  entry subj ss found := by
    have tracked := (h.entry subj ss found).1
    have other : sm.subj ≠ subj := by
      rintro rfl
      exact untracked tracked
    rw [seqsOf_append, if_neg other]
    exact h.entry subj ss found
  present subj tracked nonempty := by
    have other : sm.subj ≠ subj := by
      rintro rfl
      exact untracked tracked
    rw [seqsOf_append, if_neg other] at nonempty
    exact h.present subj tracked nonempty

theorem Indexed.append {msgs : List StoreMsg} {fss : SubjectTree} {sm : StoreMsg} {ss : SimpleState}
    (h : Indexed msgs fss) (tracked : Tracked sm.subj)
    (totals : Totals (insert sm.seq (seqsOf msgs sm.subj)) ss) :
    Indexed (msgs ++ [sm]) (Table.set fss sm.subj ss) := by
  refine h.set tracked ?_ ?_
  · rw [seqsOf_append, if_pos rfl]
    exact totals
  · intro other different
    rw [seqsOf_append, if_neg different]

namespace Consistent

variable {ms : MemStore} {sm : StoreMsg}

theorem addTracked (h : Consistent ms) (next : sm.seq = ms.lastSeq + 1)
    (room : sm.seq + 1 < 2 ^ 64) {ss : SimpleState} (entry : Table.get ms.fss sm.subj = some ss) :
    Consistent { ms.addMsg sm with
      fss := Table.set ms.fss sm.subj
        { ss with msgs := ss.msgs + 1, last := sm.seq, lastNeedsUpdate := false } } := by
  obtain ⟨tracked, totals⟩ := h.index.entry _ ss entry
  refine h.addMsg next room (h.index.append tracked (totals.extend ?_))
  intro m inside
  obtain ⟨a, there, _, rfl⟩ := mem_seqsOf.mp inside
  have := h.high a there
  omega

theorem trackSubject (h : Consistent ms) (next : sm.seq = ms.lastSeq + 1)
    (room : sm.seq + 1 < 2 ^ 64) : Consistent ((ms.addMsg sm).trackSubject sm.subj sm.seq) := by
  rw [MemStore.trackSubject]
  split
  next none => exact h.addMsg next room (h.index.untracked (fun tracked => tracked.1 none))
  rename_i some
  have fss : (ms.addMsg sm).fss = ms.fss := rfl
  rw [fss]
  cases entry : Table.get ms.fss sm.subj with
  | none =>
    dsimp only
    rw [SubjectTree.insert]
    split
    next pivot => exact h.addMsg next room (h.index.untracked (fun tracked => tracked.2 pivot))
    rename_i plain
    have tracked : Tracked sm.subj := ⟨some, plain⟩
    refine h.addMsg next room (h.index.append tracked ?_)
    rw [h.index.absent tracked entry]
    apply UpToDate.totals
    have bounds := bounds_of_single (S := {sm.seq}) rfl (Finset.mem_singleton_self _)
    exact ⟨rfl, rfl, rfl, bounds.1, bounds.2⟩
  | some ss =>
    have added := h.addTracked next room entry
    dsimp only
    split
    · exact kept.enforcePerSubjectLimit added _ _
    · exact added

/-- The checks change at most the tree. Then the message is refused, or it is tracked and the
limits are enforced, without a panic. -/
theorem storeRawMsg_cases (h : Consistent ms) (room : ms.lastSeq + 2 < 2 ^ 64)
    (subj hdr msg : Bytes) (seq : Nat) (ts : Int) (check : Bool) :
    ∃ fss refused, (if check && ms.cfg.discard = .discardNew then ms.checkDiscardNew subj hdr msg
        else (ms, none)) = ({ ms with fss := fss }, refused) ∧
      Consistent { ms with fss := fss } ∧
      ((∃ err, ms.storeRawMsg subj hdr msg seq ts check = some ({ ms with fss := fss }, some err)) ∨
        refused = none ∧ ∃ limited left,
          (({ ms with fss := fss }.addMsg ⟨subj, hdr, msg, ms.lastSeq + 1, ts⟩).trackSubject subj
            (ms.lastSeq + 1)).enforceMsgLimit = some limited ∧
          limited.enforceBytesLimit = some left ∧
          ms.storeRawMsg subj hdr msg seq ts check = some (left, none)) := by
  obtain ⟨fss, refused, outcome, checked⟩ : ∃ fss refused,
      (if check && ms.cfg.discard = .discardNew then ms.checkDiscardNew subj hdr msg
        else (ms, none)) = ({ ms with fss := fss }, refused) ∧ Consistent { ms with fss := fss } := by
    split
    · have frame : (ms.checkDiscardNew subj hdr msg).1 =
          { ms with fss := (ms.checkDiscardNew subj hdr msg).1.fss } :=
        @checkDiscardNew_of_refresh (fun other => other = { ms with fss := other.fss }) ms subj hdr
          msg rfl (fun _ => by rw [MemStore.refresh]; split <;> rfl)
      exact ⟨_, _, Prod.ext frame rfl, frame ▸ kept.checkDiscardNew h subj hdr msg⟩
    · exact ⟨ms.fss, none, rfl, h⟩
  refine ⟨fss, refused, outcome, checked, ?_⟩
  rw [storeRawMsg, outcome]
  simp only [h.next]
  cases refused with
  | some err => exact .inl ⟨err, rfl⟩
  | none =>
    dsimp only
    split
    · exact .inl ⟨_, rfl⟩
    have tracked := @trackSubject _ ⟨subj, hdr, msg, ms.lastSeq + 1, ts⟩ checked rfl room
    obtain ⟨limited, first, _⟩ := tracked.enforceMsgLimit
    obtain ⟨left, second, _⟩ := (kept.enforceMsgLimit tracked first).enforceBytesLimit
    refine .inr ⟨rfl, limited, left, first, second, ?_⟩
    rw [first]
    dsimp only
    rw [second]

theorem storeRawMsg (h : Consistent ms) (room : ms.lastSeq + 2 < 2 ^ 64) (subj hdr msg : Bytes)
    (seq : Nat) (ts : Int) (check : Bool) :
    ∃ r, ms.storeRawMsg subj hdr msg seq ts check = some r ∧ Consistent r.1 := by
  obtain ⟨_, _, _, checked, ⟨_, result⟩ | ⟨_, _, _, first, second, result⟩⟩ :=
    h.storeRawMsg_cases room subj hdr msg seq ts check
  · exact ⟨_, result, checked⟩
  · exact ⟨_, result, kept.enforceBytesLimit
      (kept.enforceMsgLimit (checked.trackSubject rfl room) first) second⟩

end Consistent

structure Dropped (seqs : List Nat) (ms : MemStore) (r : MemStore × Nat × Nat) : Prop where
  sorted : Sorted r.1.msgs
  msgs : ∀ sm, sm ∈ r.1.msgs ↔ sm ∈ ms.msgs ∧ sm.seq ∉ seqs
  dmap : ∀ n, n ∈ r.1.dmap ↔ n ∈ ms.dmap ∧ n ∉ seqs
  index : Indexed r.1.msgs r.1.fss
  purged : r.2.1 + r.1.msgs.length = ms.msgs.length
  bytes : r.2.2 + totalSize r.1.msgs = totalSize ms.msgs
  frame : r.1 = { ms with msgs := r.1.msgs, dmap := r.1.dmap, fss := r.1.fss }

theorem dropSeqs_dropped (seqs : List Nat) {ms : MemStore} (sorted : Sorted ms.msgs)
    (index : Indexed ms.msgs ms.fss) (clear : ∀ n ∈ ms.dmap, stored ms.msgs n = false) :
    Dropped seqs ms (dropSeqs seqs ms) := by
  induction seqs generalizing ms with
  | nil => exact ⟨sorted, by simp [dropSeqs], by simp [dropSeqs], index,
      by simp [dropSeqs], by simp [dropSeqs], rfl⟩
  | cons seq rest ih =>
    rw [dropSeqs]
    cases found : load ms.msgs seq with
    | none =>
      have absent := load_none found
      obtain ⟨sorted', msgs, dmap, index', purged, bytes, frame⟩ :=
        @ih { ms with dmap := ms.dmap.erase seq } sorted index
          (fun n inside => clear n (Finset.mem_of_mem_erase inside))
      refine ⟨sorted', ?_, ?_, index', purged, bytes, frame⟩
      · intro sm
        rw [msgs, mem_cons, not_or]
        exact and_congr_right (fun inside => ⟨fun out => ⟨absent sm inside, out⟩, And.right⟩)
      · intro n
        rw [dmap, Finset.mem_erase, mem_cons, not_or]
        tauto
    | some sm =>
      obtain ⟨inside, rfl⟩ := load_mem found
      have perm := sorted.perm_delete inside
      have length : ms.msgs.length = (delete ms.msgs sm.seq).length + 1 := perm.length_eq
      have size : totalSize ms.msgs = sm.size + totalSize (delete ms.msgs sm.seq) :=
        (perm.map StoreMsg.size).sum_eq
      have later := @ih
        { ms with
          fss := removeSeqPerSubject ms.fss sm.subj sm.seq
          msgs := delete ms.msgs sm.seq }
        (sorted.delete _) (index.removeSeqPerSubject sorted found)
        (fun n there => stored_delete_false.mpr (.inr (clear n there)))
      dsimp only
      generalize dropSeqs rest _ = r at later ⊢
      obtain ⟨sorted', msgs, dmap, index', purged, bytes, frame⟩ := later
      have purged := purged.trans (rfl : _ = (delete ms.msgs sm.seq).length)
      have bytes := bytes.trans (rfl : _ = totalSize (delete ms.msgs sm.seq))
      refine ⟨sorted', ?_, ?_, index', ?_, ?_, frame⟩
      · intro other
        rw [msgs, mem_delete, mem_cons, not_or, and_assoc]
      · intro n
        rw [dmap, mem_cons, not_or]
        refine and_congr_right (fun there => ⟨fun out => ⟨?_, out⟩, And.right⟩)
        rintro rfl
        have gap := clear sm.seq there
        rw [stored_iff.mpr ⟨sm, inside, rfl⟩] at gap
        cases gap
      · change r.2.1 + 1 + r.1.msgs.length = ms.msgs.length
        omega
      · change r.2.2 + sm.size + totalSize r.1.msgs = totalSize ms.msgs
        omega

/-- An operation removed exactly the messages with a property and reports their number. -/
structure Removes (ms : MemStore) (gone : StoreMsg → Bool) (r : MemStore × Nat) : Prop where
  consistent : Consistent r.1
  left : ∀ sm, sm ∈ r.1.msgs ↔ sm ∈ ms.msgs ∧ gone sm = false
  number : r.2 = ms.msgs.countP gone

theorem Consistent.removes {ms : MemStore} {gone : StoreMsg → Bool} {r : MemStore × Nat}
    (h : Consistent ms) (consistent : Consistent r.1)
    (left : ∀ sm, sm ∈ r.1.msgs ↔ sm ∈ ms.msgs ∧ gone sm = false)
    (total : r.2 + r.1.msgs.length = ms.msgs.length) : Removes ms gone r := by
  refine ⟨consistent, left, ?_⟩
  have perm : r.1.msgs.Perm (ms.msgs.filter (fun sm => !gone sm)) := by
    rw [perm_ext_iff_of_nodup consistent.sorted.nodup_msgs (h.sorted.nodup_msgs.filter _)]
    intro sm
    simpa using left sm
  have kept := perm.length_eq
  have split := length_eq_countP_add_countP gone (l := ms.msgs)
  have rest : (ms.msgs.filter (fun sm => !gone sm)).length =
      ms.msgs.countP (fun sm => decide ¬ gone sm = true) := by
    rw [countP_eq_length_filter]
    congr 1
    refine filter_congr (fun sm _ => ?_)
    cases gone sm <;> rfl
  omega

namespace Consistent

variable {ms : MemStore}

theorem clear (h : Consistent ms) : ∀ n ∈ ms.dmap, stored ms.msgs n = false :=
  fun n inside => ((h.gaps n).mp inside).2.2.2

theorem stored_dropped {seqs : List Nat} {r : MemStore × Nat × Nat} (dropped : Dropped seqs ms r)
    (n : Nat) : stored r.1.msgs n = true ↔ stored ms.msgs n = true ∧ n ∉ seqs := by
  rw [stored_iff, stored_iff]
  constructor
  · rintro ⟨sm, inside, rfl⟩
    obtain ⟨there, kept⟩ := (dropped.msgs sm).mp inside
    exact ⟨⟨sm, there, rfl⟩, kept⟩
  · rintro ⟨⟨sm, there, rfl⟩, kept⟩
    exact ⟨sm, (dropped.msgs sm).mpr ⟨there, kept⟩, rfl⟩

theorem settle (h : Consistent ms) (first : Nat) {last : Nat} (room : last + 1 < 2 ^ 64) {seqs : List Nat}
    {r : MemStore × Nat × Nat} (dropped : Dropped seqs { ms with firstSeq := first } r)
    (bounds : ∀ n, stored r.1.msgs n = true → first ≤ n ∧ n ≤ last)
    (isFirst : r.1.msgs ≠ [] → stored r.1.msgs first = true)
    (gaps : ∀ n, n ∈ r.1.dmap ↔
      r.1.msgs ≠ [] ∧ first ≤ n ∧ n ≤ last ∧ stored r.1.msgs n = false) :
    Consistent (({ r.1 with lastSeq := last } : MemStore).subtract r.2.1 r.2.2).1 := by
  have count := h.count
  have bytes := h.bytes
  have purged := dropped.purged.trans (rfl : _ = ms.msgs.length)
  have sizes := dropped.bytes.trans (rfl : _ = totalSize ms.msgs)
  have firstSeq : r.1.firstSeq = first := by rw [dropped.frame]
  have stateMsgs : r.1.stateMsgs = ms.stateMsgs := by rw [dropped.frame]
  have stateBytes : r.1.stateBytes = ms.stateBytes := by rw [dropped.frame]
  simp only [subtract]
  refine ⟨⟨dropped.sorted, ?_, ?_, ?_, ?_, ?_, ?_, ?_, dropped.index⟩, room⟩
  · change r.1.stateMsgs - min r.2.1 r.1.stateMsgs = r.1.msgs.length
    omega
  · change r.1.stateBytes - min r.2.2 r.1.stateBytes = totalSize r.1.msgs
    omega
  · exact fun sm inside => h.positive sm ((dropped.msgs sm).mp inside).1
  · intro sm inside
    change r.1.firstSeq ≤ sm.seq
    exact firstSeq ▸ (bounds sm.seq (stored_iff.mpr ⟨sm, inside, rfl⟩)).1
  · exact fun sm inside => (bounds sm.seq (stored_iff.mpr ⟨sm, inside, rfl⟩)).2
  · intro nonempty
    change stored r.1.msgs r.1.firstSeq = true
    exact firstSeq ▸ isFirst nonempty
  · intro n
    change n ∈ r.1.dmap ↔ r.1.msgs ≠ [] ∧ r.1.firstSeq ≤ n ∧ n ≤ last ∧ stored r.1.msgs n = false
    rw [firstSeq]
    exact gaps n

theorem mem_down {lo count n : Nat} :
    n ∈ (List.range' lo count).reverse ↔ lo ≤ n ∧ n < lo + count := by
  rw [mem_reverse, mem_range'_1]

theorem stored_ne_nil {msgs : List StoreMsg} {n : Nat} (there : stored msgs n = true) :
    msgs ≠ [] := by
  rintro rfl
  cases there

theorem withLast {r : MemStore} {last : Nat} (same : r.lastSeq = last) :
    { r with lastSeq := last } = r := by
  subst same
  rfl

theorem subtract_total {r : MemStore × Nat × Nat} {seqs : List Nat} {base : MemStore}
    (dropped : Dropped seqs base r) (count : base.stateMsgs = base.msgs.length) :
    (r.1.subtract r.2.1 r.2.2).2 + r.1.msgs.length = base.msgs.length := by
  have purged := dropped.purged
  have stateMsgs : r.1.stateMsgs = base.stateMsgs := by rw [dropped.frame]
  change min r.2.1 r.1.stateMsgs + r.1.msgs.length = base.msgs.length
  omega

section

variable (h : Consistent ms)

include h

theorem compact_removes {seq : Nat} (positive : 0 < seq) (word : seq < 2 ^ 64) :
    Removes ms (fun sm => sm.seq < seq) (ms.compact seq) := by
  rw [compact, if_neg (ne_of_gt positive)]
  split
  next before =>
    refine h.removes h ?_ (zero_add _)
    intro sm
    refine ⟨fun inside => ⟨inside, ?_⟩, And.left⟩
    have := h.low sm inside
    simp only [decide_eq_false_iff_not]
    omega
  split
  next low high =>
    cases found : firstIn (stored ms.msgs) seq ms.lastSeq with
    | none =>
      -- Every message is below `seq`: the loop drops them all.
      have dropped := dropSeqs_dropped
        (List.range' ms.firstSeq (ms.lastSeq + 1 - ms.firstSeq)).reverse h.sorted h.index h.clear
      dsimp only
      generalize dropSeqs _ ms = r at dropped ⊢
      have gone : r.1.msgs = [] := by
        rw [eq_nil_iff_forall_not_mem]
        intro sm inside
        obtain ⟨old, kept⟩ := (dropped.msgs sm).mp inside
        exact kept (mem_down.mpr (by have := h.low sm old; have := h.high sm old; omega))
      have last : r.1.lastSeq = ms.lastSeq := by rw [dropped.frame]
      have total := subtract_total dropped h.count
      rw [← withLast last] at total ⊢
      refine h.removes (h.settle ms.firstSeq h.room dropped ?_
        (fun some => absurd gone some) ?_) ?_ total
      · intro n there
        exact absurd gone (stored_ne_nil there)
      · intro n
        rw [dropped.dmap, h.gaps, mem_down]
        refine iff_of_false ?_ (fun some => some.1 gone)
        rintro ⟨⟨_, low, high, _⟩, outside⟩
        omega
      · intro sm
        refine iff_of_false ?_ ?_
        · change sm ∉ r.1.msgs
          rw [gone]
          exact not_mem_nil
        · rintro ⟨inside, above⟩
          have absent := firstIn_none.mp found sm.seq (by simpa using above) (h.high sm inside)
          rw [stored_iff.mpr ⟨sm, inside, rfl⟩] at absent
          cases absent
    | some first =>
      obtain ⟨above, below, there, least⟩ := firstIn_some found
      have dropped := @dropSeqs_dropped (List.range' ms.firstSeq (first - ms.firstSeq)).reverse
        { ms with firstSeq := first } h.sorted h.index h.clear
      dsimp only
      generalize dropSeqs _ _ = r at dropped ⊢
      have kept : ∀ n, stored r.1.msgs n = true ↔ stored ms.msgs n = true ∧ first ≤ n := by
        intro n
        rw [stored_dropped dropped, mem_down]
        refine and_congr_right (fun old => ?_)
        have range := h.bounds old
        omega
      have isFirst : stored r.1.msgs first = true := (kept first).mpr ⟨there, le_refl _⟩
      have last : r.1.lastSeq = ms.lastSeq := by rw [dropped.frame]
      have total := subtract_total dropped h.count
      rw [← withLast last] at total ⊢
      refine h.removes (h.settle first h.room dropped ?_ (fun _ => isFirst) ?_) ?_ total
      · intro n stored
        exact ⟨((kept n).mp stored).2, (h.bounds ((kept n).mp stored).1).2⟩
      · intro n
        rw [dropped.dmap, h.gaps, mem_down, Bool.eq_false_iff, Bool.eq_false_iff, ne_eq, ne_eq,
          ne_eq, ne_eq, kept]
        constructor
        · rintro ⟨⟨_, low, high, gap⟩, outside⟩
          exact ⟨stored_ne_nil isFirst, by omega, high, fun stored => gap stored.1⟩
        · rintro ⟨_, low, high, gap⟩
          exact ⟨⟨stored_ne_nil there, by omega, high, fun stored => gap ⟨stored, low⟩⟩,
            by omega⟩
      · intro sm
        change sm ∈ r.1.msgs ↔ _
        rw [dropped.msgs, mem_down]
        refine and_congr_right (fun inside => ?_)
        have low := h.low sm inside
        simp only [decide_eq_false_iff_not, not_lt]
        constructor
        · intro outside
          omega
        · intro from_seq
          have := least sm.seq from_seq (h.high sm inside) (stored_iff.mpr ⟨sm, inside, rfl⟩)
          omega
  next past =>
    refine h.removes (emptied _ _ (by omega)) ?_ (add_zero _)
    intro sm
    refine iff_of_false not_mem_nil ?_
    rintro ⟨inside, above⟩
    have := h.high sm inside
    simp only [decide_eq_false_iff_not] at above
    omega

theorem compact {seq : Nat} (word : seq < 2 ^ 64) : Consistent (ms.compact seq).1 := by
  rcases Nat.eq_zero_or_pos seq with rfl | positive
  · exact emptied _ _ h.room
  · exact (h.compact_removes positive word).consistent

theorem truncate {seq : Nat} (low : ms.firstSeq ≤ seq) (high : seq ≤ ms.lastSeq) :
    Consistent (ms.truncate seq) := by
  rw [MemStore.truncate]
  split
  · exact emptied _ _ (by decide)
  have dropped := dropSeqs_dropped (List.range' (seq + 1) (ms.lastSeq - seq)).reverse h.sorted
    h.index h.clear
  dsimp only
  generalize dropSeqs _ ms = r at dropped ⊢
  have kept : ∀ n, stored r.1.msgs n = true ↔ stored ms.msgs n = true ∧ n ≤ seq := by
    intro n
    rw [stored_dropped dropped, mem_down]
    refine and_congr_right (fun old => ?_)
    have range := h.bounds old
    omega
  have nonempty : ms.msgs ≠ [] ↔ r.1.msgs ≠ [] := by
    constructor
    · exact fun some => stored_ne_nil ((kept ms.firstSeq).mpr ⟨h.first some, low⟩)
    · intro some
      obtain ⟨sm, inside⟩ := exists_mem_of_ne_nil _ some
      exact ne_nil_of_mem ((dropped.msgs sm).mp inside).1
  have room := h.room
  refine h.settle ms.firstSeq (by omega) dropped ?_ ?_ ?_
  · intro n stored
    exact ⟨(h.bounds ((kept n).mp stored).1).1, ((kept n).mp stored).2⟩
  · exact fun some => (kept ms.firstSeq).mpr ⟨h.first (nonempty.mpr some), low⟩
  · intro n
    rw [dropped.dmap, h.gaps, mem_down, ← nonempty, Bool.eq_false_iff, Bool.eq_false_iff, ne_eq,
      ne_eq, ne_eq, kept]
    constructor
    · rintro ⟨⟨some, above, below, gap⟩, outside⟩
      exact ⟨some, above, by omega, fun stored => gap stored.1⟩
    · rintro ⟨some, above, below, gap⟩
      exact ⟨⟨some, above, by omega, fun stored => gap ⟨stored, below⟩⟩, by omega⟩

theorem purge : Consistent (ms.purge 0).1 := emptied _ _ h.room

theorem skipTo {lseq : Nat} (forward : ms.lastSeq ≤ lseq) (room : lseq + 1 < 2 ^ 64)
    (some : ms.msgs ≠ []) : Consistent { ms with
      lastSeq := lseq
      dmap := ms.dmap ∪ Finset.Icc (ms.lastSeq + 1) lseq } := by
  refine { h with
    high := fun sm inside => le_trans (h.high sm inside) forward, gaps := ?_, room := room }
  · intro n
    change n ∈ ms.dmap ∪ Finset.Icc (ms.lastSeq + 1) lseq ↔
      ms.msgs ≠ [] ∧ ms.firstSeq ≤ n ∧ n ≤ lseq ∧ stored ms.msgs n = false
    rw [Finset.mem_union, Finset.mem_Icc, h.gaps]
    have order := (h.bounds (h.first some)).2
    constructor
    · rintro (⟨_, low, high, gap⟩ | ⟨low, high⟩)
      · exact ⟨some, low, by omega, gap⟩
      · refine ⟨some, by omega, high, ?_⟩
        rw [Bool.eq_false_iff]
        intro there
        have := (h.bounds there).2
        omega
    · rintro ⟨_, low, high, gap⟩
      by_cases inside : n ≤ ms.lastSeq
      · exact .inl ⟨some, low, inside, gap⟩
      · exact .inr ⟨by omega, high⟩

theorem moved (empty : ms.stateMsgs = 0) (first : Nat) {last : Nat} (room : last + 1 < 2 ^ 64) :
    Consistent { ms with lastSeq := last, firstSeq := first } := by
  have nothing : ms.msgs = [] := length_eq_zero_iff.mp (h.count.symm.trans empty)
  refine { h with
    low := fun sm inside => absurd nothing (ne_nil_of_mem inside)
    high := fun sm inside => absurd nothing (ne_nil_of_mem inside)
    first := absurd nothing
    room := room
    gaps := fun n => iff_of_false ?_ (fun some => some.1 nothing) }
  exact fun inside => ((h.gaps n).mp inside).1 nothing

theorem nonempty_of_count (some : ms.stateMsgs ≠ 0) : ms.msgs ≠ [] := by
  intro nothing
  exact some (by rw [h.count, nothing, length_nil])

omit h in
theorem skipped_last {num : Nat} (room : ms.lastSeq + num + 1 < 2 ^ 64) :
    u64 (2 ^ 64 - 1 + (ms.lastSeq + 1) + num) = ms.lastSeq + num := by
  rw [show 2 ^ 64 - 1 + (ms.lastSeq + 1) + num = ms.lastSeq + num + 2 ^ 64 by omega, u64,
    Nat.add_mod_right, Nat.mod_eq_of_lt (by omega)]

theorem skipMsgs (seq : Nat) {num : Nat} (room : ms.lastSeq + num + 1 < 2 ^ 64) :
    Consistent (ms.skipMsgs seq num).1 := by
  rw [MemStore.skipMsgs]
  split
  · exact h
  simp only [h.next, skipped_last room]
  split
  next empty => exact h.moved empty _ room
  next some => exact h.skipTo (by omega) room (h.nonempty_of_count some)

theorem skipMsg (seq : Nat) (room : ms.lastSeq + 2 < 2 ^ 64) : Consistent (ms.skipMsg seq).1 := by
  rw [MemStore.skipMsg]
  split
  · exact h
  simp only [h.next]
  split
  next empty => exact h.moved empty _ room
  rename_i some
  have skipped := h.skipTo (Nat.le_succ ms.lastSeq) room (h.nonempty_of_count some)
  rw [Finset.Icc_self, Finset.union_comm, ← Finset.insert_eq] at skipped
  exact skipped

end

end Consistent
end LinearNats.Store
