import LinearNats.Store.Filtered

/-! Where a new consumer starts. The two lookups of the store that do not matter for the position
of a filter (the first sequence from a time on, the last sequences of some filters) are parameters;
the first is used through its contract only. The first sequence of a filter is that of the messages
whose subjects a walk over the subject tree visits. -/
namespace LinearNats.JetStream
open Server Store List

inductive DeliverPolicy where
  | deliverAll
  | deliverLast
  | deliverNew
  | deliverByStartSequence
  | deliverByStartTime
  | deliverLastPerSubject
  deriving DecidableEq

structure StartConfig where
  deliverPolicy : DeliverPolicy
  optStartSeq : Nat
  optStartTime : Option Int
  filterSubject : Bytes
  direct : Bool
  subjf : List Bytes

structure Lookups where
  getSeqFromTime : MemStore → Int → Nat
  multiLastSeqs : MemStore → List Bytes → List Nat
  /-- The subject tree of the store. -/
  tree : FssTree
  /-- The order in which the store goes through its messages for a filter. -/
  iter : Bytes → List StoreMsg

structure LastSeqSkipList where
  resume : Nat
  seqs : List Nat

structure Start where
  ms : MemStore
  sseq : Nat
  dseq : Nat
  adflr : Nat
  asflr : Nat
  lss : Option LastSeqSkipList

/-- The greatest last sequence of the filters, from `sseq` up. -/
def lastOfFilters (lookups : Lookups) (ms : MemStore) (sseq : Nat) :
    List Bytes → MemStore × Nat
  | [] => (ms, sseq)
  | filter :: rest =>
    let (ms, ss) := ms.filteredState lookups.tree (lookups.iter filter) 1 filter
    lastOfFilters lookups ms (if sseq < ss.last then ss.last else sseq) rest

/-- The least first sequence of the filters that is not below `sseq`, from `nseq` down. -/
def nearestFirst (lookups : Lookups) (fseq sseq : Nat) (ms : MemStore) (nseq : Nat) :
    List Bytes → MemStore × Nat
  | [] => (ms, nseq)
  | filter :: rest =>
    let (ms, ss) := ms.filteredState lookups.tree (lookups.iter filter) fseq filter
    nearestFirst lookups fseq sseq ms
      (if sseq ≤ ss.first ∧ ss.first < nseq then ss.first else nseq) rest

def startByTime (lookups : Lookups) (ms : MemStore) (subjf : List Bytes) (time : Int) :
    MemStore × Nat :=
  let sseq := lookups.getSeqFromTime ms time
  if subjf = [] then (ms, sseq)
  else
    let (after, nseq) := nearestFirst lookups ms.firstSeq sseq ms ms.lastSeq subjf
    (after, if sseq < nseq ∧ nseq < ms.lastSeq then nseq else sseq)

def startByPolicy (lookups : Lookups) (ms : MemStore) (cfg : StartConfig) :
    MemStore × Nat × Option LastSeqSkipList :=
  if cfg.optStartSeq ≠ 0 then (ms, cfg.optStartSeq, none)
  else match cfg.deliverPolicy, cfg.optStartTime with
    | .deliverAll, _ => (ms, ms.firstSeq, none)
    | .deliverLast, _ =>
      if cfg.subjf = [] then (ms, ms.lastSeq, none)
      else
        let (ms, sseq) := lastOfFilters lookups ms 0 cfg.subjf
        (ms, sseq, none)
    | .deliverLastPerSubject, _ =>
      if ms.cfg.maxMsgsPer = 1 then (ms, ms.firstSeq, none)
      else
        let filters := if cfg.subjf = [] then [cfg.filterSubject] else cfg.subjf
        let seqs := lookups.multiLastSeqs ms filters
        (ms, seqs.headD ms.lastSeq, some ⟨ms.lastSeq, seqs⟩)
    | _, some time =>
      let (ms, sseq) := startByTime lookups ms cfg.subjf time
      (ms, sseq, none)
    | _, none => (ms, u64 (ms.lastSeq + 1), none)

def clampStart (firstSeq lastSeq : Nat) (cfg : StartConfig) (sseq : Nat) : Nat :=
  if firstSeq = 0 ∧ (cfg.direct = true ∨ cfg.optStartSeq = 0) then 1
  else if lastSeq < sseq ∧ (cfg.direct = true ∨ cfg.optStartSeq = 0) then u64 (lastSeq + 1)
  else if sseq < firstSeq then firstSeq
  else sseq

def selectStartingSeqNo (lookups : Lookups) (ms : MemStore) (cfg : StartConfig) : Start :=
  let (after, selected, lss) := startByPolicy lookups ms cfg
  let sseq := clampStart ms.firstSeq ms.lastSeq cfg selected
  ⟨after, sseq, 1, 0, sseq - 1, lss⟩

/-- The contract of `GetSeqFromTime`: the first sequence whose message is not older. -/
def FirstFrom (ms : MemStore) (time : Int) (seq : Nat) : Prop :=
  (∃ sm ∈ ms.msgs, time ≤ sm.ts ∧ sm.seq = seq ∧
    ∀ other ∈ ms.msgs, time ≤ other.ts → seq ≤ other.seq) ∨
  ((∀ sm ∈ ms.msgs, sm.ts < time) ∧ seq = ms.lastSeq + 1)

def Wanted (subjf : List Bytes) (sm : StoreMsg) : Prop :=
  subjf = [] ∨ ∃ filter ∈ subjf, filterMatches filter sm.subj = true

instance (subjf : List Bytes) (sm : StoreMsg) : Decidable (Wanted subjf sm) :=
  inferInstanceAs (Decidable (_ ∨ _))

def InTimeOrder (ms : MemStore) : Prop :=
  ∀ a ∈ ms.msgs, ∀ b ∈ ms.msgs, a.seq ≤ b.seq → a.ts ≤ b.ts

/-- The first sequence of a filter, as the store reads it. -/
def FirstOf (ms : MemStore) (tree : FssTree) (filter : Bytes) (n : Nat) :
    Prop :=
  IsLeast {n | ∃ sm ∈ ms.msgs, treeReads tree filter sm.subj = true ∧ sm.seq = n} n

section Nearest

variable {ms : MemStore} {lookups : Lookups} {tree : FssTree} {sseq nseq : Nat}

structure Nearest (ms : MemStore) (tree : FssTree) (sseq bound : Nat)
    (filters : List Bytes) (n : Nat) : Prop where
  le_bound : n ≤ bound
  source : n = bound ∨ sseq ≤ n ∧ ∃ filter ∈ filters, FirstOf ms tree filter n
  least : ∀ filter ∈ filters, ∀ first, FirstOf ms tree filter first → sseq ≤ first → n ≤ first

theorem FirstOf.congr {after : MemStore} (same : after.msgs = ms.msgs) {filter : Bytes} {n : Nat} :
    FirstOf after tree filter n ↔ FirstOf ms tree filter n := by
  rw [FirstOf, FirstOf, same]

theorem firstOf_of_state (nonempty : ms.msgs ≠ []) {filter : Bytes} {r : MemStore × SimpleState}
    (whole : WholeState ms filter (treeReads tree filter) r) (positive : 0 < r.2.first) :
    FirstOf ms tree filter r.2.first := by
  by_cases some : ∃ sm ∈ ms.msgs, treeReads tree filter sm.subj = true
  · obtain ⟨sm, inside, good⟩ := some
    exact whole.first sm inside good
  exfalso
  have none : ∀ sm ∈ ms.msgs, treeReads tree filter sm.subj = false := by
    intro sm inside
    rw [Bool.eq_false_iff]
    exact fun good => some ⟨sm, inside, good⟩
  have narrow : ¬ (filter = [] ∨ filter = fwcs) := by
    intro all
    obtain ⟨sm, inside⟩ := exists_mem_of_ne_nil _ nonempty
    have good := none sm inside
    rw [treeReads, decide_eq_true all, Bool.true_or] at good
    cases good
  have zero := whole.absent narrow none
  omega

theorem nearestFirst_spec {fseq : Nat} (filters : List Bytes) (positive : 0 < sseq)
    (h : Consistent ms) (spans : Spans lookups.tree ms.fss)
    (start : ∀ sm ∈ ms.msgs, fseq ≤ sm.seq) (nonempty : ms.msgs ≠ []) :
    Nearest ms lookups.tree sseq nseq filters
      (nearestFirst lookups fseq sseq ms nseq filters).2 := by
  induction filters generalizing ms nseq with
  | nil => exact ⟨le_refl _, .inl rfl, fun _ inside => by cases inside⟩
  | cons filter rest ih =>
    have whole := filteredState_whole h start (lookups.iter filter) filter spans
    rw [nearestFirst]
    generalize ms.filteredState lookups.tree (lookups.iter filter) fseq filter = r at whole ⊢
    obtain ⟨after, ss⟩ := r
    have same : after.msgs = ms.msgs := (congrArg MemStore.msgs whole.frame :)
    dsimp only
    generalize bound : (if sseq ≤ ss.first ∧ ss.first < nseq then ss.first else nseq) = n
    have found := @ih after n whole.consistent (spans.congr whole.keys) (same ▸ start)
      (same ▸ nonempty)
    have here : n = nseq ∨ sseq ≤ n ∧ FirstOf ms lookups.tree filter n := by
      split at bound
      next taken =>
        subst bound
        exact .inr ⟨taken.1, firstOf_of_state nonempty whole (show 0 < ss.first by omega)⟩
      · exact .inl bound.symm
    have lower : n ≤ nseq := by split at bound <;> omega
    refine ⟨le_trans found.le_bound lower, ?_, ?_⟩
    · rcases found.source with at_bound | ⟨late, other, inside, first⟩
      · rw [at_bound]
        exact here.imp_right fun ⟨late, first⟩ => ⟨late, filter, mem_cons_self, first⟩
      · exact .inr ⟨late, other, mem_cons_of_mem _ inside, (FirstOf.congr same).mp first⟩
    · intro other inside first is_first late
      rcases mem_cons.mp inside with rfl | later
      · obtain ⟨sm, stored, good, _⟩ := is_first.1
        have equal : ss.first = first := (whole.first sm stored good).unique is_first
        have := found.le_bound
        split at bound <;> omega
      · exact found.least other later first ((FirstOf.congr same).mpr is_first) late

end Nearest

section ByTime

variable {ms : MemStore} {lookups : Lookups} {cfg : StartConfig} {time : Int}

variable {seq : Nat} {sm : StoreMsg} {subjf : List Bytes} {tree : FssTree}

theorem FirstFrom.positive (h : Consistent ms) (first : FirstFrom ms time seq) : 0 < seq := by
  rcases first with ⟨sm, inside, _, rfl, _⟩ | ⟨_, rfl⟩
  · exact h.positive sm inside
  · exact Nat.succ_pos _

theorem FirstFrom.iff (h : Consistent ms) (ordered : InTimeOrder ms) (first : FirstFrom ms time seq)
    (inside : sm ∈ ms.msgs) : time ≤ sm.ts ↔ seq ≤ sm.seq := by
  rcases first with ⟨found, there, recent, rfl, least⟩ | ⟨old, rfl⟩
  · exact ⟨least sm inside, fun later => Int.le_trans recent (ordered found there sm inside later)⟩
  · have := old sm inside
    have := h.high sm inside
    constructor <;> omega

/-- A filter that reads a message before the last sequence and none from before the time. -/
def Fresh (ms : MemStore) (tree : FssTree) (time : Int) (filter : Bytes) :
    Prop :=
  (∃ sm ∈ ms.msgs, treeReads tree filter sm.subj = true ∧ sm.seq < ms.lastSeq) ∧
    ∀ sm ∈ ms.msgs, treeReads tree filter sm.subj = true → time ≤ sm.ts

def Earliest (ms : MemStore) (time : Int) (subjf : List Bytes) (sm : StoreMsg) : Prop :=
  (sm ∈ ms.msgs ∧ Wanted subjf sm ∧ time ≤ sm.ts) ∧
    ∀ other ∈ ms.msgs, Wanted subjf other → time ≤ other.ts → sm.seq ≤ other.seq

/-- If there is a fresh filter, one reads a message that is not after the earliest wanted one. -/
def FreshInTime (ms : MemStore) (tree : FssTree) (time : Int)
    (subjf : List Bytes) : Prop :=
  (∃ filter ∈ subjf, Fresh ms tree time filter) → ∀ sm, Earliest ms time subjf sm →
    ∃ filter ∈ subjf, Fresh ms tree time filter ∧
      ∃ other ∈ ms.msgs, treeReads tree filter other.subj = true ∧ other.seq ≤ sm.seq

def SkipsNothing (ms : MemStore) (time : Int) (subjf : List Bytes) (sseq : Nat) : Prop :=
  ∀ sm ∈ ms.msgs, Wanted subjf sm → time ≤ sm.ts → sseq ≤ sm.seq

instance (ms : MemStore) (subjf : List Bytes) (sseq : Nat) :
    Decidable (SkipsNothing ms time subjf sseq) :=
  inferInstanceAs (Decidable (∀ sm ∈ ms.msgs, _))

theorem exists_earliest (inside : sm ∈ ms.msgs) (wanted : Wanted subjf sm) (recent : time ≤ sm.ts) :
    ∃ first, Earliest ms time subjf first := by
  have some : ∃ n, ∃ sm ∈ ms.msgs, (Wanted subjf sm ∧ time ≤ sm.ts) ∧ sm.seq = n :=
    ⟨_, sm, inside, ⟨wanted, recent⟩, rfl⟩
  classical
  obtain ⟨first, there, ⟨good, late⟩, same⟩ := Nat.find_spec some
  refine ⟨first, ⟨there, good, late⟩, ?_⟩
  intro other stored other_wanted other_recent
  rw [same]
  exact Nat.find_min' some ⟨other, stored, ⟨other_wanted, other_recent⟩, rfl⟩

theorem exists_firstOf {filter : Bytes} (inside : sm ∈ ms.msgs)
    (good : treeReads tree filter sm.subj = true) :
    ∃ n, FirstOf ms tree filter n ∧ n ≤ sm.seq := by
  have some : ∃ n, ∃ sm ∈ ms.msgs, treeReads tree filter sm.subj = true ∧ sm.seq = n :=
    ⟨_, sm, inside, good, rfl⟩
  classical
  exact ⟨Nat.find some, ⟨Nat.find_spec some, fun _ there => Nat.find_min' some there⟩,
    Nat.find_min' some ⟨sm, inside, good, rfl⟩⟩

theorem fresh_iff (h : Consistent ms) (ordered : InTimeOrder ms) (first : FirstFrom ms time seq)
    {filter : Bytes} {n : Nat} (is_first : FirstOf ms tree filter n) :
    Fresh ms tree time filter ↔ seq ≤ n ∧ n < ms.lastSeq := by
  obtain ⟨⟨found, there, good, rfl⟩, least⟩ := is_first
  constructor
  · rintro ⟨⟨sm, inside, matches_, before⟩, all⟩
    have low := least ⟨sm, inside, matches_, rfl⟩
    exact ⟨(first.iff h ordered there).mp (all found there good), by omega⟩
  · rintro ⟨late, before⟩
    refine ⟨⟨found, there, good, before⟩, fun sm inside matches_ => ?_⟩
    have low := least ⟨sm, inside, matches_, rfl⟩
    exact (first.iff h ordered inside).mpr (le_trans late low)

/-- Jumping ahead to the nearest first sequence skips nothing exactly if a fresh filter has read a
message by the earliest wanted one. -/
theorem jump_iff {nseq : Nat} (h : Consistent ms) (ordered : InTimeOrder ms)
    (first : FirstFrom ms time seq) (nearest : Nearest ms tree seq ms.lastSeq subjf nseq) :
    SkipsNothing ms time subjf (if seq < nseq ∧ nseq < ms.lastSeq then nseq else seq) ↔
      FreshInTime ms tree time subjf := by
  have below : nseq < ms.lastSeq ↔ ∃ filter ∈ subjf, Fresh ms tree time filter := by
    constructor
    · intro before
      rcases nearest.source with at_bound | ⟨late, filter, inside, is_first⟩
      · omega
      · exact ⟨filter, inside, (fresh_iff h ordered first is_first).mpr ⟨late, before⟩⟩
    · rintro ⟨filter, inside, fresh⟩
      obtain ⟨sm, there, good, _⟩ := fresh.1
      obtain ⟨n, is_first, _⟩ := exists_firstOf there good
      obtain ⟨late, before⟩ := (fresh_iff h ordered first is_first).mp fresh
      have := nearest.least filter inside n is_first late
      omega
  constructor
  · intro nothing some sm earliest
    have before := below.mpr some
    rcases nearest.source with at_bound | ⟨late, filter, inside, is_first⟩
    · omega
    obtain ⟨found, there, good, same⟩ := is_first.1
    refine ⟨filter, inside, (fresh_iff h ordered first is_first).mpr ⟨late, before⟩,
      found, there, good, ?_⟩
    have low := nothing sm earliest.1.1 earliest.1.2.1 earliest.1.2.2
    have from_seq := (first.iff h ordered earliest.1.1).mp earliest.1.2.2
    split at low <;> omega
  · intro fresh sm inside wanted recent
    have from_seq := (first.iff h ordered inside).mp recent
    split
    next ahead =>
      obtain ⟨earliest, is_earliest⟩ := exists_earliest inside wanted recent
      obtain ⟨filter, member, is_fresh, other, there, good, before⟩ :=
        fresh (below.mp ahead.2) earliest is_earliest
      obtain ⟨n, is_first, low⟩ := exists_firstOf there good
      have late := ((fresh_iff h ordered first is_first).mp is_fresh).1
      have := nearest.least filter member n is_first late
      have := is_earliest.2 sm inside wanted recent
      omega
    · exact from_seq

theorem clamp_iff (h : Consistent ms) (unset : cfg.optStartSeq = 0) {sseq : Nat} :
    SkipsNothing ms time subjf (clampStart ms.firstSeq ms.lastSeq cfg sseq) ↔
      SkipsNothing ms time subjf sseq := by
  refine forall₂_congr fun sm inside => forall₂_congr fun _ _ => ?_
  have low := h.low sm inside
  have high := h.high sm inside
  have first : ms.firstSeq ≠ 0 := by
    intro zero
    obtain ⟨found, there, same⟩ := stored_iff.mp (h.first (ne_nil_of_mem inside))
    have := h.positive found there
    omega
  simp only [clampStart, first, if_false, unset, or_true, and_true, h.next]
  split
  · omega
  · split <;> omega

/-- The policy with which a start time is read, a start sequence being unset. -/
def ByTime (cfg : StartConfig) (time : Int) : Prop :=
  cfg.deliverPolicy = .deliverByStartTime ∧ cfg.optStartSeq = 0 ∧ cfg.optStartTime = some time

theorem startByPolicy_time (by_time : ByTime cfg time) :
    (startByPolicy lookups ms cfg).2.1 = (startByTime lookups ms cfg.subjf time).2 := by
  obtain ⟨policy, unset, at_time⟩ := by_time
  simp only [startByPolicy, policy, unset, at_time, ne_eq, not_true_eq_false, if_false]

/-- A start by time skips no wanted message exactly if the jump ahead to a first sequence of a
filter does not pass the earliest of them. -/
theorem selectStartingSeqNo_time_iff (h : Consistent ms) (spans : Spans lookups.tree ms.fss)
    (ordered : InTimeOrder ms) (by_time : ByTime cfg time)
    (contract : FirstFrom ms time (lookups.getSeqFromTime ms time)) :
    SkipsNothing ms time cfg.subjf (selectStartingSeqNo lookups ms cfg).sseq ↔
      FreshInTime ms lookups.tree time cfg.subjf := by
  change SkipsNothing ms time cfg.subjf
    (clampStart ms.firstSeq ms.lastSeq cfg (startByPolicy lookups ms cfg).2.1) ↔ _
  rw [clamp_iff h by_time.2.1, startByPolicy_time by_time, startByTime]
  generalize lookups.getSeqFromTime ms time = seq at contract ⊢
  dsimp only
  split
  next filtered =>
    rw [filtered]
    refine iff_of_true (fun sm inside _ => (contract.iff h ordered inside).mp) ?_
    rintro ⟨filter, inside, _⟩
    cases inside
  by_cases empty : ms.msgs = []
  · refine iff_of_true (fun sm inside => ?_) (fun _ sm earliest => ?_)
    · rw [empty] at inside
      cases inside
    · have inside := earliest.1.1
      rw [empty] at inside
      cases inside
  · exact jump_iff h ordered contract
      (nearestFirst_spec cfg.subjf (contract.positive h) h spans h.low empty)

end ByTime

def firstFromTime (ms : MemStore) (time : Int) : Nat :=
  ((ms.msgs.find? (fun sm => decide (time ≤ sm.ts))).map StoreMsg.seq).getD (ms.lastSeq + 1)

def linearLookups (tree : FssTree) : Lookups :=
  ⟨firstFromTime, fun _ _ => [], tree, fun _ => []⟩

theorem firstFromTime_spec {ms : MemStore} (h : Consistent ms) (time : Int) :
    FirstFrom ms time (firstFromTime ms time) := by
  rw [firstFromTime]
  cases found : ms.msgs.find? (fun sm => decide (time ≤ sm.ts)) with
  | none =>
    refine .inr ⟨fun sm inside => ?_, rfl⟩
    simpa using find?_eq_none.mp found sm inside
  | some sm =>
    refine .inl ⟨sm, mem_of_find?_eq_some found, by simpa using find?_some found, rfl, ?_⟩
    intro other inside recent
    rcases Scan.find_before h.sorted found inside (by simpa using recent) with same | before
    · exact le_of_eq (congrArg StoreMsg.seq same)
    · exact le_of_lt before

def abaTimes : List Op :=
  [.storeMsg (ascii "a") [] [] 1, .storeMsg (ascii "a") [] [] 2, .storeMsg (ascii "b") [] [] 3,
   .storeMsg (ascii "a") [] [] 4]

def fromTime (time : Int) (subjf : List Bytes) : StartConfig :=
  ⟨.deliverByStartTime, 0, some time, [], false, subjf⟩

/-- From time 2 on the second `a` is wanted, and the start is at the `b` after it. -/
theorem start_skips_second_a :
    ∃ ms tree, Reached abaTimes ms tree ∧ Consistent ms ∧ Spans tree ms.fss ∧
      ms.msgs.map (fun sm => (sm.subj, sm.seq, sm.ts)) =
        [(ascii "a", 1, 1), (ascii "a", 2, 2), (ascii "b", 3, 3), (ascii "a", 4, 4)] ∧
      (selectStartingSeqNo (linearLookups tree) ms (fromTime 2 [ascii "a", ascii "b"])).sseq = 3 ∧
      ¬ SkipsNothing ms 2 [ascii "a", ascii "b"] 3 :=
  reached abaTimes (by decide +kernel) (by decide +kernel)

theorem start_from_time_three :
    ∃ ms tree, Reached abaTimes ms tree ∧ Consistent ms ∧ Spans tree ms.fss ∧ InTimeOrder ms ∧
      (SkipsNothing ms 3 [ascii "a", ascii "b"] (selectStartingSeqNo (linearLookups tree) ms
          (fromTime 3 [ascii "a", ascii "b"])).sseq ↔
        FreshInTime ms tree 3 [ascii "a", ascii "b"]) := by
  obtain ⟨ms, tree, there, consistent, spans, ordered⟩ :=
    reached abaTimes (P := fun ms _ => InTimeOrder ms) (by decide +kernel)
      (by unfold InTimeOrder; decide +kernel)
  exact ⟨ms, tree, there, consistent, spans, ordered,
    @selectStartingSeqNo_time_iff ms (linearLookups tree) (fromTime 3 [ascii "a", ascii "b"]) 3
      consistent spans ordered ⟨rfl, rfl, rfl⟩ (firstFromTime_spec consistent 3)⟩

end LinearNats.JetStream
