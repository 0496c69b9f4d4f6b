import LinearNats.Store.Filtered

/-! Purging by subject, by sequence and by the number of messages to keep. -/
namespace LinearNats.Store
open Server Scan Counting List MemStore

namespace MemStore

/-- The loop over the sequences of a filtered purge; it ends early at `limit` messages. -/
def purgeFrom (eq : Bytes → Bool) (limit : Nat) : List Nat → MemStore → Nat → MemStore × Nat
  | [], ms, purged => (ms, purged)
  | seq :: rest, ms, purged =>
    match load ms.msgs seq with
    | none => purgeFrom eq limit rest ms purged
    | some sm =>
      if eq sm.subj then
        match ms.removeMsg sm.seq with
        | (ms, true) =>
          if limit ≤ purged + 1 then (ms, purged + 1) else purgeFrom eq limit rest ms (purged + 1)
        | (ms, false) => purgeFrom eq limit rest ms purged
      else purgeFrom eq limit rest ms purged

def purgeEx (ms : MemStore) (tree : FssTree) (iter : List StoreMsg)
    (subject : Bytes) (sequence keep : Nat) : MemStore × Nat :=
  if subject = [] ∨ subject = fwcs then
    if keep = 0 ∧ sequence = 0 then
      (ms.emptied (u64 (ms.lastSeq + 1)) ms.lastSeq, ms.msgs.length)
    else if 1 < sequence then ms.compact sequence
    else if 0 < keep then
      if ms.stateMsgs ≤ keep then (ms, 0) else ms.compact (ms.lastSeq - keep + 1)
    else (ms, 0)
  else
    let (ms, ss) := ms.filteredState tree iter 1 subject
    if 0 < ss.msgs then
      if 0 < keep ∧ ss.msgs ≤ keep then (ms, 0)
      else
        let last := if 1 < sequence then sequence - 1 else ss.last
        purgeFrom (compareFn subject) (ss.msgs - keep)
          (List.range' ss.first (last + 1 - ss.first)) ms 0
    else (ms, 0)

end MemStore

/-- What a purge is asked to remove: the matching messages below a sequence, or all but the
highest `keep` of them, or all of them. -/
def asked (msgs : List StoreMsg) (subject : Bytes) (sequence keep : Nat) (sm : StoreMsg) : Bool :=
  filterMatches subject sm.subj &&
    if 0 < sequence then decide (sm.seq < sequence)
    else decide (keep ≤ msgs.countP (fun other => filterMatches subject other.subj &&
      decide (sm.seq < other.seq)))

def purgeTaken (msgs : List StoreMsg) (eq : Bytes → Bool) (seqs : List Nat) (count : Nat) :
    List StoreMsg :=
  ((seqs.filterMap (load msgs)).filter (fun sm => eq sm.subj)).take count

theorem filterMap_load_delete {msgs : List StoreMsg} {n : Nat} {seqs : List Nat} (new : n ∉ seqs) :
    seqs.filterMap (load (delete msgs n)) = seqs.filterMap (load msgs) := by
  refine filterMap_congr (fun m inside => load_delete ?_)
  rintro rfl
  exact new inside

theorem purgeFrom_spec (eq : Bytes → Bool) (limit : Nat) {seqs : List Nat} (nodup : seqs.Nodup)
    {ms : MemStore} (h : Consistent ms) {purged : Nat} (below : purged < limit) :
    Consistent (purgeFrom eq limit seqs ms purged).1 ∧
      (∀ sm, sm ∈ (purgeFrom eq limit seqs ms purged).1.msgs ↔
        sm ∈ ms.msgs ∧ sm ∉ purgeTaken ms.msgs eq seqs (limit - purged)) ∧
      (purgeFrom eq limit seqs ms purged).2 =
        purged + (purgeTaken ms.msgs eq seqs (limit - purged)).length := by
  induction seqs generalizing ms purged with
  | nil => simp [purgeFrom, purgeTaken, h]
  | cons seq rest ih =>
    have new := (nodup_cons.mp nodup).1
    have ih := @ih (nodup_cons.mp nodup).2
    rw [purgeFrom]
    cases found : load ms.msgs seq with
    | none =>
      have same : purgeTaken ms.msgs eq (seq :: rest) = purgeTaken ms.msgs eq rest := by
        funext count
        rw [purgeTaken, filterMap_cons_none found, purgeTaken]
      rw [same]
      exact ih h below
    | some sm =>
      obtain ⟨inside, rfl⟩ := load_mem found
      dsimp only
      split
      next good =>
        have removed := Consistent.removeMsg_stored (stored_iff.mpr ⟨sm, inside, rfl⟩)
        have next := h.removeMsg sm.seq
        have msgs := Consistent.removeMsg_msgs ms sm.seq
        have taken : purgeTaken ms.msgs eq (sm.seq :: rest) (limit - purged) =
            sm :: purgeTaken (delete ms.msgs sm.seq) eq rest (limit - (purged + 1)) := by
          obtain ⟨count, left⟩ := Nat.exists_eq_add_of_lt below
          have more : limit - purged = count + 1 := by omega
          have less : limit - (purged + 1) = count := by omega
          rw [purgeTaken, filterMap_cons_some found,
            filter_cons_of_pos (p := fun sm : StoreMsg => eq sm.subj) good, more,
            take_succ_cons, purgeTaken, filterMap_load_delete new, less]
        have kept : ∀ a, a ∈ delete ms.msgs sm.seq ↔ a ∈ ms.msgs ∧ a ≠ sm := by
          intro a
          rw [mem_delete]
          refine and_congr_right (fun there => not_congr ⟨h.sorted.unique there inside, ?_⟩)
          rintro rfl
          rfl
        rw [taken]
        generalize ms.removeMsg sm.seq = r at removed next msgs ⊢
        obtain ⟨after, ok⟩ := r
        have removed : ok = true := removed
        have msgs : after.msgs = delete ms.msgs sm.seq := msgs
        subst removed
        dsimp only
        split
        · rename_i full
          have none : purgeTaken (delete ms.msgs sm.seq) eq rest (limit - (purged + 1)) = [] := by
            rw [purgeTaken, Nat.sub_eq_zero_of_le full, take_zero]
          rw [none]
          refine ⟨next, fun a => ?_, rfl⟩
          change a ∈ after.msgs ↔ _
          rw [msgs, kept, mem_singleton]
        rename_i more
        obtain ⟨consistent, left, number⟩ := ih next (not_le.mp more)
        rw [msgs] at left number
        refine ⟨consistent, fun a => ?_, ?_⟩
        · rw [left, kept, mem_cons, not_or, and_assoc]
        · rw [number, length_cons]
          omega
      next bad =>
        have same : purgeTaken ms.msgs eq (sm.seq :: rest) = purgeTaken ms.msgs eq rest := by
          funext count
          rw [purgeTaken, filterMap_cons_some found,
            filter_cons_of_neg (by simpa using bad), purgeTaken]
        rw [same]
        exact ih h below

theorem purgeFrom_congr {eq eq' : Bytes → Bool} (limit : Nat) (seqs : List Nat) {ms : MemStore}
    (same : ∀ sm ∈ ms.msgs, eq sm.subj = eq' sm.subj) (purged : Nat) :
    purgeFrom eq limit seqs ms purged = purgeFrom eq' limit seqs ms purged := by
  induction seqs generalizing ms purged with
  | nil => rfl
  | cons seq rest ih =>
    rw [purgeFrom, purgeFrom]
    cases found : load ms.msgs seq with
    | none => exact ih same purged
    | some sm =>
      have msgs := Consistent.removeMsg_msgs ms sm.seq
      dsimp only
      rw [same sm (load_mem found).1, ih same]
      generalize ms.removeMsg sm.seq = r at msgs ⊢
      obtain ⟨after, ok⟩ := r
      have same' : ∀ sm ∈ after.msgs, eq sm.subj = eq' sm.subj := fun a inside =>
        same a (mem_delete.mp ((show after.msgs = _ from msgs) ▸ inside)).1
      cases ok with
      | true =>
        dsimp only
        rw [ih same']
      | false =>
        dsimp only
        rw [ih same']

/-- In a list ordered by sequence the first `k` are those with at most so many above them. -/
theorem mem_take_sorted {l : List StoreMsg} (sorted : Sorted l) {k : Nat} {sm : StoreMsg} :
    sm ∈ l.take k ↔
      sm ∈ l ∧ l.length ≤ k + l.countP (fun other => decide (sm.seq < other.seq)) := by
  induction sorted generalizing k with
  | nil => simp
  | @cons a rest before later ih =>
    cases k with
    | zero =>
      simp only [take_zero, not_mem_nil, false_iff]
      rintro ⟨inside, many⟩
      have some : ∃ other ∈ a :: rest, ¬ decide (sm.seq < other.seq) = true :=
        ⟨sm, inside, by simp⟩
      have fewer : (a :: rest).countP (fun other => decide (sm.seq < other.seq)) <
          (a :: rest).length := by
        refine lt_of_le_of_ne countP_le_length (fun all => ?_)
        obtain ⟨other, there, not⟩ := some
        exact not (countP_eq_length.mp all other there)
      omega
    | succ k =>
      rw [take_succ_cons, mem_cons, mem_cons, ih, length_cons, countP_cons]
      constructor
      · rintro (rfl | ⟨inside, few⟩)
        · have all : rest.countP (fun other => decide (sm.seq < other.seq)) = rest.length :=
            countP_eq_length.mpr (fun other there => by simpa using before other there)
          exact ⟨.inl rfl, by omega⟩
        · exact ⟨.inr inside, by omega⟩
      · rintro ⟨rfl | inside, few⟩
        · exact .inl rfl
        · have under : ¬ sm.seq < a.seq := not_lt.mpr (le_of_lt (before sm inside))
          simp only [under, decide_false, Bool.false_eq_true, if_false] at few
          exact .inr ⟨inside, by omega⟩

section Filtered

variable {ms : MemStore} {tree : FssTree} {iter : List StoreMsg}
  {subject : Bytes}

def inRange (subject : Bytes) (lo count : Nat) (sm : StoreMsg) : Bool :=
  filterMatches subject sm.subj && (lo ≤ sm.seq && sm.seq < lo + count)

def candidates (msgs : List StoreMsg) (subject : Bytes) (lo count : Nat) : List StoreMsg :=
  ((List.range' lo count).filterMap (load msgs)).filter (fun sm => filterMatches subject sm.subj)

theorem candidates_sorted (msgs : List StoreMsg) (lo count : Nat) :
    Sorted (candidates msgs subject lo count) := by
  refine List.Pairwise.filter _ (List.Pairwise.filterMap _ ?_ pairwise_lt_range')
  intro m n below a at_m b at_n
  rw [(load_mem at_m).2, (load_mem at_n).2]
  exact below

theorem candidates_perm (h : Consistent ms) (lo count : Nat) :
    (candidates ms.msgs subject lo count).Perm (ms.msgs.filter (inRange subject lo count)) := by
  have range := between_perm h.sorted lo (lo + count)
  rw [between, Nat.add_sub_cancel_left] at range
  refine (range.filter _).trans ?_
  rw [filter_filter]
  exact List.Perm.refl _

/-- The loop removes the messages of its range that have few enough others above them. -/
theorem purgeFrom_removes (h : Consistent ms) {base : MemStore} (consistent : Consistent base)
    (same : base.msgs = ms.msgs) {lo count limit : Nat} (positive : 0 < limit)
    {gone : StoreMsg → Bool}
    (taken : ∀ sm ∈ ms.msgs, gone sm = true ↔ inRange subject lo count sm = true ∧
      ms.msgs.countP (inRange subject lo count) ≤ limit +
        ms.msgs.countP (fun other => sm.seq < other.seq && inRange subject lo count other)) :
    Removes ms gone
      (purgeFrom (filterMatches subject) limit (List.range' lo count) base 0) := by
  have nodup : (List.range' lo count).Nodup := nodup_range'
  obtain ⟨result, left, number⟩ :=
    purgeFrom_spec (filterMatches subject) limit nodup consistent positive
  have sorted : Sorted (candidates ms.msgs subject lo count) := candidates_sorted ms.msgs lo count
  have perm : (candidates ms.msgs subject lo count).Perm _ := candidates_perm h lo count
  have length := perm.length_eq.trans countP_eq_length_filter.symm
  rw [Nat.sub_zero, same, purgeTaken] at left number
  change ∀ sm, _ ↔ sm ∈ ms.msgs ∧ sm ∉ (candidates ms.msgs subject lo count).take limit at left
  change _ = 0 + ((candidates ms.msgs subject lo count).take limit).length at number
  have member : ∀ sm, sm ∈ (candidates ms.msgs subject lo count).take limit ↔
      sm ∈ ms.msgs ∧ gone sm = true := by
    intro sm
    rw [mem_take_sorted sorted, perm.mem_iff, length, perm.countP_eq, countP_filter,
      mem_filter, and_assoc]
    exact and_congr_right (fun inside => (taken sm inside).symm)
  refine ⟨result, fun sm => ?_, ?_⟩
  · rw [left, member, not_and, Bool.not_eq_true]
    exact ⟨fun ⟨inside, kept⟩ => ⟨inside, kept inside⟩,
      fun ⟨inside, kept⟩ => ⟨inside, fun _ => kept⟩⟩
  · have filtered : ((candidates ms.msgs subject lo count).take limit).Perm
        (ms.msgs.filter gone) := by
      rw [perm_ext_iff_of_nodup (sorted.nodup_msgs.sublist (take_sublist _ _))
        (h.sorted.nodup_msgs.filter _)]
      intro sm
      rw [member, mem_filter]
    rw [number, filtered.length_eq, zero_add, countP_eq_length_filter]

/-- A filtered purge at sequence 1 takes everything, since the bound is only read above 1. -/
def PurgesAsked (ms : MemStore) (subject : Bytes) (sequence keep : Nat) : Prop :=
  if subject = [] ∨ subject = fwcs then
    0 < keep → keep < ms.msgs.length →
      ms.msgs.countP (fun sm => ms.lastSeq - keep < sm.seq) = keep
  else sequence = 1 → ∀ sm ∈ ms.msgs, filterMatches subject sm.subj = false

theorem above_lt {msgs : List StoreMsg} {p : StoreMsg → Bool} {sm : StoreMsg} (inside : sm ∈ msgs)
    (good : p sm = true) :
    msgs.countP (fun other => p other && decide (sm.seq < other.seq)) < msgs.countP p := by
  have split := countP_split p (fun other => decide (sm.seq < other.seq)) msgs
  have some : 0 < msgs.countP (fun other => p other && !decide (sm.seq < other.seq)) :=
    countP_pos_iff.mpr ⟨sm, inside, by simp [good]⟩
  omega

theorem filtered_removes (h : Consistent ms) {base : MemStore} (consistent : Consistent base)
    (same : base.msgs = ms.msgs) {first last keep : Nat} {gone : StoreMsg → Bool}
    (limit : keep < ms.msgs.countP (fun sm => filterMatches subject sm.subj))
    (low : ∀ sm ∈ ms.msgs, filterMatches subject sm.subj = true → first ≤ sm.seq)
    (bound : keep = 0 ∨ ∀ sm ∈ ms.msgs, filterMatches subject sm.subj = true → sm.seq ≤ last)
    (exactly : ∀ sm ∈ ms.msgs, gone sm = true ↔ filterMatches subject sm.subj = true ∧ sm.seq ≤ last ∧
      keep ≤ ms.msgs.countP (fun other => filterMatches subject other.subj &&
        decide (sm.seq < other.seq))) :
    Removes ms gone (purgeFrom (filterMatches subject)
      (ms.msgs.countP (fun sm => filterMatches subject sm.subj) - keep)
      (List.range' first (last + 1 - first)) base 0) := by
  have range : ∀ sm ∈ ms.msgs, inRange subject first (last + 1 - first) sm = true ↔
      filterMatches subject sm.subj = true ∧ sm.seq ≤ last := by
    intro sm inside
    simp only [inRange, Bool.and_eq_true, decide_eq_true_eq]
    refine and_congr_right (fun good => ?_)
    have := low sm inside good
    omega
  have fewer : ms.msgs.countP (inRange subject first (last + 1 - first)) ≤
      ms.msgs.countP (fun sm => filterMatches subject sm.subj) :=
    countP_mono_left (fun sm inside good => ((range sm inside).mp good).1)
  refine purgeFrom_removes h consistent same (Nat.sub_pos_of_lt limit) (fun sm inside => ?_)
  rw [exactly sm inside, range sm inside, and_assoc]
  refine and_congr_right (fun good => and_congr_right (fun _ => ?_))
  rcases bound with rfl | high
  · exact iff_of_true (Nat.zero_le _) (by omega)
  have all : ms.msgs.countP (inRange subject first (last + 1 - first)) =
      ms.msgs.countP (fun sm => filterMatches subject sm.subj) := by
    refine countP_congr (fun other there => ?_)
    rw [range other there]
    exact ⟨And.left, fun good => ⟨good, high other there good⟩⟩
  have above : ms.msgs.countP (fun other => decide (sm.seq < other.seq) &&
        inRange subject first (last + 1 - first) other) =
      ms.msgs.countP (fun other => filterMatches subject other.subj &&
        decide (sm.seq < other.seq)) := by
    refine countP_congr (fun other there => ?_)
    rw [Bool.and_eq_true, Bool.and_eq_true, range other there]
    exact ⟨fun both => ⟨both.2.1, both.1⟩, fun both => ⟨both.2, both.1, high other there both.1⟩⟩
  rw [all, above]
  omega

theorem filteredState_store (h : Consistent ms) (tree : FssTree)
    (iter : List StoreMsg) (sseq : Nat) (subj : Bytes) :
    Consistent (ms.filteredState tree iter sseq subj).1 ∧
      ∃ fss, (ms.filteredState tree iter sseq subj).1 = { ms with fss := fss } := by
  rw [filteredState, filteredStateLocked]
  dsimp only
  generalize (if sseq < ms.firstSeq then ms.firstSeq else sseq) = start
  split
  · exact ⟨h, ms.fss, rfl⟩
  split
  · exact ⟨h, ms.fss, rfl⟩
  have refreshed := h.refreshMatching (tree.visits (orAll subj))
  rw [filteredFrom]
  split
  · exact ⟨refreshed, _, rfl⟩
  · exact ⟨refreshed, _, rfl⟩

/-- Whatever a purge takes the subject for, it only removes messages. -/
theorem purgeEx_sub (h : Consistent ms) {sequence : Nat} (word : sequence < 2 ^ 64) (keep : Nat) :
    Consistent (ms.purgeEx tree iter subject sequence keep).1 ∧
      ∀ sm ∈ (ms.purgeEx tree iter subject sequence keep).1.msgs, sm ∈ ms.msgs := by
  have room := h.room
  have compacted : ∀ seq, 0 < seq → seq < 2 ^ 64 → Consistent (ms.compact seq).1 ∧
      ∀ sm ∈ (ms.compact seq).1.msgs, sm ∈ ms.msgs := by
    intro seq positive word
    have removes := h.compact_removes positive word
    exact ⟨removes.consistent, fun sm inside => ((removes.left sm).mp inside).1⟩
  rw [purgeEx]
  split
  · split
    · refine ⟨.emptied _ _ h.room, fun sm inside => ?_⟩
      cases inside
    split
    · exact compacted _ (by omega) word
    split
    · split
      · exact ⟨h, fun _ inside => inside⟩
      · exact compacted _ (Nat.succ_pos _) (by omega)
    · exact ⟨h, fun _ inside => inside⟩
  · obtain ⟨consistent, fss, same⟩ := filteredState_store h tree iter 1 subject
    generalize ms.filteredState tree iter 1 subject = r at consistent same ⊢
    obtain ⟨base, ss⟩ := r
    obtain rfl : base = { ms with fss := fss } := same
    dsimp only at consistent ⊢
    split
    · split
      · exact ⟨consistent, fun _ inside => inside⟩
      next some_ more =>
        have spec := fun count => purgeFrom_spec (compareFn subject) (ss.msgs - keep)
          (@nodup_range' ss.first count 1 Nat.one_pos) consistent (show 0 < ss.msgs - keep by omega)
        exact ⟨(spec _).1, fun sm inside => (((spec _).2.1 sm).mp inside).1⟩
    · exact ⟨consistent, fun _ inside => inside⟩

/-- The walk over the tree and the comparison of the loop read the subject as it is meant. -/
def ReadsSubject (ms : MemStore) (tree : FssTree) (subject : Bytes) : Prop :=
  ∀ sm ∈ ms.msgs, tree.visits (orAll subject) sm.subj = filterMatches subject sm.subj ∧
    compareFn subject sm.subj = filterMatches subject sm.subj

theorem WholeState.of_visits (filtered : ¬ (subject = [] ∨ subject = fwcs))
    (visits : ∀ sm ∈ ms.msgs, tree.visits (orAll subject) sm.subj = filterMatches subject sm.subj)
    {r : MemStore × SimpleState} (whole : WholeState ms subject (treeReads tree subject) r) :
    WholeState ms subject (filterMatches subject) r := by
  have same : ∀ sm ∈ ms.msgs, treeReads tree subject sm.subj = filterMatches subject sm.subj := by
    intro sm inside
    rw [treeReads, decide_eq_false filtered, Bool.false_or, visits sm inside]
  exact whole.congr same

theorem purgeEx_filtered (h : Consistent ms) (spans : Spans tree ms.fss)
    (reads : ReadsSubject ms tree subject) {sequence keep : Nat}
    (either : sequence = 0 ∨ keep = 0) (filtered : ¬ (subject = [] ∨ subject = fwcs)) :
    Removes ms (asked ms.msgs subject sequence keep) (ms.purgeEx tree iter subject sequence keep) ↔
      PurgesAsked ms subject sequence keep := by
  have whole := (filteredState_whole (s := 1) h h.positive iter subject spans).of_visits filtered
    (fun sm inside => (reads sm inside).1)
  rw [purgeEx, PurgesAsked, if_neg filtered, if_neg filtered]
  generalize ms.filteredState tree iter 1 subject = r at whole ⊢
  obtain ⟨base, ss⟩ := r
  obtain ⟨consistent, frame, _, number, first, last, absent⟩ := whole
  have same : base.msgs = ms.msgs := by
    have msgs := congrArg msgs frame
    exact msgs
  dsimp only at consistent number first last absent ⊢
  rw [number, purgeFrom_congr _ _ (fun sm inside => (reads sm (same ▸ inside)).2)]
  have low : ∀ sm ∈ ms.msgs, filterMatches subject sm.subj = true → ss.first ≤ sm.seq :=
    fun sm inside good => (first sm inside good).2 ⟨sm, inside, good, rfl⟩
  split
  next some =>
    split
    · rename_i few
      -- There are no more matching messages than should be kept.
      have zero : sequence = 0 := by omega
      subst zero
      refine iff_of_true (h.removes consistent (fun sm => ?_) ?_) (fun one => by cases one)
      · rw [same]
        refine ⟨fun inside => ⟨inside, ?_⟩, And.left⟩
        rw [Bool.eq_false_iff]
        intro gone
        simp only [asked, lt_irrefl, if_false, Bool.and_eq_true, decide_eq_true_eq] at gone
        have fewer := above_lt (p := fun sm : StoreMsg => filterMatches subject sm.subj) inside gone.1
        omega
      · rw [same, zero_add]
    rename_i many
    have limit : keep < ms.msgs.countP (fun sm => filterMatches subject sm.subj) := by omega
    by_cases one : sequence = 1
    · subst one
      have zero : keep = 0 := by omega
      subst zero
      have all : Removes ms (fun sm => filterMatches subject sm.subj) _ :=
        filtered_removes h consistent same limit low (.inl rfl) (fun sm inside =>
          ⟨fun good => ⟨good, last sm inside good, Nat.zero_le _⟩, And.left⟩)
      obtain ⟨sm, inside, good⟩ := countP_pos_iff.mp some
      refine iff_of_false (fun none => ?_) (fun none => ?_)
      · have kept : asked ms.msgs subject 1 0 sm = false := by
          have := h.positive sm inside
          simp only [asked, Nat.lt_one_iff, if_true]
          simp [ne_of_gt this]
        have gone := ((all.left sm).mp ((none.left sm).mpr ⟨inside, kept⟩)).2
        rw [good] at gone
        cases gone
      · rw [none rfl sm inside] at good
        cases good
    refine iff_of_true (filtered_removes h consistent same limit low ?_ ?_)
      (fun wrong => absurd wrong one)
    · rcases either with rfl | rfl
      · exact .inr last
      · exact .inl rfl
    · intro sm inside
      rw [asked, Bool.and_eq_true]
      refine and_congr_right (fun good => ?_)
      have high := last sm inside good
      by_cases zero : sequence = 0
      · subst zero
        simp [high]
      have above : 1 < sequence := by omega
      have none : keep = 0 := by omega
      subst none
      simp only [above, if_true, zero_le, and_true, decide_eq_true_eq, pos_of_ne_zero zero]
      omega
  next none =>
    have zero : ms.msgs.countP (fun sm => filterMatches subject sm.subj) = 0 := by omega
    have nothing : ∀ sm ∈ ms.msgs, filterMatches subject sm.subj = false := by
      intro sm inside
      simpa using countP_eq_zero.mp zero sm inside
    refine iff_of_true (h.removes consistent (fun sm => ?_) ?_) (fun _ => nothing)
    · rw [same]
      exact ⟨fun inside => ⟨inside, by rw [asked, nothing sm inside, Bool.false_and]⟩, And.left⟩
    · rw [same, zero_add]

theorem Removes.iff_agree {r : MemStore × Nat} {gone other : StoreMsg → Bool}
    (h : Removes ms gone r) :
    Removes ms other r ↔ ∀ sm ∈ ms.msgs, gone sm = other sm := by
  constructor
  · intro h' sm inside
    have same : gone sm = false ↔ other sm = false := by
      have := (h.left sm).symm.trans (h'.left sm)
      simpa [inside] using this
    cases g : gone sm <;> cases o : other sm <;> simp [g, o] at same ⊢
  · intro agree
    refine ⟨h.consistent, fun sm => ?_, ?_⟩
    · rw [h.left]
      exact and_congr_right (fun inside => by rw [agree sm inside])
    · rw [h.number]
      exact countP_congr (fun sm inside => by rw [agree sm inside])

/-- Removing what is below a sequence keeps the highest `keep` exactly if so many are not. -/
theorem below_iff_keep (h : Consistent ms) {bound keep : Nat} (more : keep < ms.msgs.length) :
    (∀ sm ∈ ms.msgs, (sm.seq ≤ bound ↔
      keep ≤ ms.msgs.countP (fun other => decide (sm.seq < other.seq)))) ↔
      ms.msgs.countP (fun sm => bound < sm.seq) = keep := by
  constructor
  · intro agree
    -- What is at or below the bound is what comes before the highest `keep`.
    have same : (ms.msgs.filter (fun sm => sm.seq ≤ bound)).Perm
        (ms.msgs.take (ms.msgs.length - keep)) := by
      rw [perm_ext_iff_of_nodup (h.sorted.nodup_msgs.filter _)
        (h.sorted.nodup_msgs.sublist (take_sublist _ _))]
      intro sm
      rw [mem_filter, mem_take_sorted h.sorted, decide_eq_true_eq]
      refine and_congr_right (fun inside => ?_)
      rw [agree sm inside]
      omega
    have number := same.length_eq
    have split := length_eq_countP_add_countP (fun sm => decide (bound < sm.seq)) (l := ms.msgs)
    rw [length_take, ← countP_eq_length_filter] at number
    simp only [decide_eq_true_eq, not_lt] at split
    omega
  · intro exactly sm inside
    constructor
    · intro below
      rw [← exactly]
      refine countP_mono_left (fun other _ higher => ?_)
      simp only [decide_eq_true_eq] at higher ⊢
      omega
    · intro many
      by_contra above
      have within := above_lt (p := fun other : StoreMsg => decide (bound < other.seq)) inside
        (by simpa using above)
      have same : ms.msgs.countP (fun other => decide (sm.seq < other.seq)) =
          ms.msgs.countP (fun other => decide (bound < other.seq) &&
            decide (sm.seq < other.seq)) := by
        refine countP_congr (fun other _ => ?_)
        simp only [Bool.and_eq_true, decide_eq_true_eq]
        exact ⟨fun higher => ⟨by omega, higher⟩, And.right⟩
      omega

theorem purgeEx_unfiltered (h : Consistent ms) {sequence keep : Nat} (word : sequence < 2 ^ 64)
    (either : sequence = 0 ∨ keep = 0) (all : subject = [] ∨ subject = fwcs) :
    Removes ms (asked ms.msgs subject sequence keep) (ms.purgeEx tree iter subject sequence keep) ↔
      PurgesAsked ms subject sequence keep := by
  have everything := filterMatches_all all
  have room := h.room
  have keeps : ∀ sm, asked ms.msgs subject 0 keep sm =
      decide (keep ≤ ms.msgs.countP (fun other => decide (sm.seq < other.seq))) := by
    intro sm
    simp [asked, everything]
  have unlimited : keep = 0 → PurgesAsked ms subject sequence keep := by
    rintro rfl
    rw [PurgesAsked, if_pos all]
    exact fun some => absurd some (lt_irrefl 0)
  rw [purgeEx, if_pos all]
  split
  next both =>
    refine iff_of_true (h.removes (.emptied _ _ h.room) (fun sm => ?_) (add_zero _))
      (unlimited both.1)
    rw [both.2, keeps, both.1]
    simp [emptied]
  split
  next above =>
    have none : keep = 0 := by omega
    refine iff_of_true ?_ (unlimited none)
    refine (h.compact_removes (by omega) word).iff_agree.mpr (fun sm _ => ?_)
    have positive : 0 < sequence := by omega
    simp only [asked, everything, positive, if_true, Bool.true_and]
  split
  next notBoth low some =>
    have zero : sequence = 0 := by omega
    subst zero
    split
    · rename_i few
      rw [h.count] at few
      refine iff_of_true (h.removes h (fun sm => ?_) (zero_add _)) ?_
      · refine ⟨fun inside => ⟨inside, ?_⟩, And.left⟩
        have fewer := above_lt (p := fun _ : StoreMsg => true) inside rfl
        simp only [Bool.true_and, countP_true] at fewer
        rw [keeps, decide_eq_false_iff_not]
        omega
      · rw [PurgesAsked, if_pos all]
        intro _ more
        omega
    rename_i many
    rw [h.count, not_le] at many
    rw [PurgesAsked, if_pos all, (h.compact_removes (Nat.succ_pos _) (by omega)).iff_agree]
    have window := @below_iff_keep ms h (ms.lastSeq - keep) keep many
    constructor
    · intro agree _ _
      refine window.mp (fun sm inside => ?_)
      have same := agree sm inside
      rwa [keeps, decide_eq_decide, Nat.lt_succ_iff] at same
    · intro exactly sm inside
      rw [keeps, decide_eq_decide, Nat.lt_succ_iff]
      exact window.mpr (exactly some many) sm inside
  next notBoth low none =>
    refine iff_of_true (h.removes h (fun sm => ?_) (zero_add _)) (unlimited (by omega))
    refine ⟨fun inside => ⟨inside, ?_⟩, And.left⟩
    have one : sequence = 1 := by omega
    have positive := h.positive sm inside
    subst one
    simp [asked, ne_of_gt positive]

end Filtered

def gapped : List Op :=
  [.storeMsg (ascii "a") [] [] 1, .storeMsg (ascii "a") [] [] 2, .storeMsg (ascii "a") [] [] 3,
   .storeMsg (ascii "a") [] [] 4, .removeMsg 3]

end LinearNats.Store
