import LinearNats.Consumer.Floors
import LinearNats.Store.Purge

/-! What a purge of the stream does to its consumers. The subject tree is walked twice, `tree` by
the purge and `left`, the tree that it leaves, for the first message that is left. -/
namespace LinearNats.JetStream
open Server Store MemStore

namespace Consumer

def isFilteredMatch (o : Consumer) (subj : Bytes) : Bool :=
  if o.subjf = [] then true
  else o.subjf.any (fun filter => !subjectHasWildcard filter && subj == filter) ||
    o.subjf.any (fun filter =>
      isSubsetMatchTokenized (tokenizeSubject subj) (tokenizeSubject filter))

def isEqualOrSubsetMatch (o : Consumer) (subj : Bytes) : Bool :=
  o.subjf.any (fun filter => !subjectHasWildcard filter && subj == filter) ||
    o.subjf.any (fun filter =>
      isSubsetMatchTokenized (tokenizeSubject filter) (tokenizeSubject subj))

end Consumer

structure PurgeRequest where
  subject : Bytes
  sequence : Nat
  keep : Nat

/-- The part of `purgeLocked` for one consumer, over the purged store: `fseq` is the first sequence
of the stream, or of the purged subject if there is one. -/
def purgeConsumer (ms : MemStore) (preq : Option PurgeRequest) (fseq : Nat) (order : List Nat)
    (o : Consumer) : Consumer :=
  let gone := fun seq => !stored ms.msgs seq
  match preq with
  | none => o.purge fseq ms.lastSeq false gone order
  | some req =>
    if req.subject = [] ∨ o.isEqualOrSubsetMatch req.subject = true then
      o.purge fseq ms.lastSeq false gone order
    else if o.isFilteredMatch req.subject then o.purge ms.firstSeq ms.lastSeq true gone order
    else o

def purgedStore (ms : MemStore) (tree : FssTree)
    (preq : Option PurgeRequest) (iter : List StoreMsg) : MemStore :=
  match preq with
  | none => (ms.purge 0).1
  | some req => (ms.purgeEx tree iter req.subject req.sequence req.keep).1

def purgeStore (ms : MemStore) (tree left : FssTree)
    (preq : Option PurgeRequest) (iter : List StoreMsg) : MemStore × Nat :=
  let ms := purgedStore ms tree preq iter
  match preq with
  | none => (ms, ms.firstSeq)
  | some req =>
    if req.subject = [] then (ms, ms.firstSeq)
    else
      let (ms, ss) := ms.filteredState left iter ms.firstSeq req.subject
      (ms, ss.first)

def purgeLocked (ms : MemStore) (tree left : FssTree)
    (preq : Option PurgeRequest) (iter : List StoreMsg) (order : Consumer → List Nat)
    (cList : List Consumer) : MemStore × List Consumer :=
  let (ms, fseq) := purgeStore ms tree left preq iter
  (ms, cList.map (fun o => purgeConsumer ms preq fseq (order o) o))

section Stream

variable {ms : MemStore} {tree left : FssTree} {iter : List StoreMsg}
  {o : Consumer} {order : List Nat}

/-- What the filters of a consumer stand for. -/
def Consumer.Wants (o : Consumer) (subj : Bytes) : Prop :=
  o.subjf = [] ∨ ∃ filter ∈ o.subjf, filterMatches filter subj = true

/-- The consumer keeps what is still stored: undelivered messages stay ahead, pending ones stay
pending. -/
structure LosesNothing (after : MemStore) (o o' : Consumer) : Prop where
  undelivered : ∀ sm ∈ after.msgs, o.Wants sm.subj → o.sseq ≤ sm.seq → o'.sseq ≤ sm.seq
  pending : ∀ sm ∈ after.msgs, (Table.get o.pending sm.seq).isSome = true →
    (Table.get o'.pending sm.seq).isSome = true

def Visits (order : List Nat) (o : Consumer) : Prop :=
  ∀ seq, (Table.get o.pending seq).isSome = true → seq ∈ order

theorem LosesNothing.refl (after : MemStore) (o : Consumer) : LosesNothing after o o :=
  ⟨fun _ _ _ ahead => ahead, fun _ _ there => there⟩

/-- With `start` as the new first sequence, nothing is lost exactly when nothing that counts is
before it. -/
theorem purge_loses_nothing_iff {after : MemStore} (leader : o.leader = true)
    (visits : Visits order o) (sseq : Nat) :
    LosesNothing after o
        (o.purge sseq after.lastSeq false (fun seq => !stored after.msgs seq) order) ↔
      ∀ sm ∈ after.msgs,
        (o.Wants sm.subj → o.sseq ≤ sm.seq →
          Consumer.purgeStart sseq after.lastSeq false ≤ sm.seq) ∧
        ((Table.get o.pending sm.seq).isSome = true →
          Consumer.purgeStart sseq after.lastSeq false ≤ max sm.seq o.asflr) := by
  have position := @purge_sseq o false (fun seq => !stored after.msgs seq) order leader sseq
    after.lastSeq
  have entries := @purge_pending o false (fun seq => !stored after.msgs seq) order leader sseq
    after.lastSeq visits
  generalize Consumer.purgeStart sseq after.lastSeq false = start at position entries ⊢
  have entry : ∀ seq, (Table.get o.pending seq).isSome = true →
      ((Table.get (o.purge sseq after.lastSeq false (fun seq => !stored after.msgs seq)
        order).pending seq).isSome = true ↔ start ≤ max seq o.asflr) := by
    intro seq there
    rw [entries, and_iff_right there, PurgesEntry]
    simp only [Bool.false_eq_true, false_and, or_false]
    omega
  constructor
  · rintro ⟨undelivered, pending⟩ sm inside
    refine ⟨fun wanted ahead => ?_, fun there => (entry sm.seq there).mp (pending sm inside there)⟩
    have moved := undelivered sm inside wanted ahead
    rw [position] at moved
    omega
  · intro reached
    refine ⟨fun sm inside wanted ahead => ?_,
      fun sm inside there => (entry sm.seq there).mpr ((reached sm inside).2 there)⟩
    have := (reached sm inside).1 wanted ahead
    rw [position]
    omega

theorem purge_from_first {after : MemStore} (leader : o.leader = true) (visits : Visits order o)
    {sseq : Nat} (low : ∀ sm ∈ after.msgs, 0 < sseq ∧ sseq ≤ sm.seq) :
    LosesNothing after o
      (o.purge sseq after.lastSeq false (fun seq => !stored after.msgs seq) order) := by
  refine (purge_loses_nothing_iff leader visits sseq).mpr (fun sm inside => ?_)
  obtain ⟨positive, first⟩ := low sm inside
  have start : Consumer.purgeStart sseq after.lastSeq false = sseq := by
    rw [Consumer.purgeStart, if_neg (fun both => by omega)]
  rw [start]
  exact ⟨fun _ _ => first, fun _ => le_trans first (le_max_left _ _)⟩

theorem Consistent.first_positive {after : MemStore} (h : Consistent after) {sm : StoreMsg}
    (inside : sm ∈ after.msgs) : 0 < after.firstSeq := by
  obtain ⟨found, there, same⟩ := stored_iff.mp (h.first (List.ne_nil_of_mem inside))
  rw [← same]
  exact h.positive found there

theorem purge_wider {after : MemStore} (h : Consistent after) (leader : o.leader = true)
    (visits : Visits order o) :
    LosesNothing after o (o.purge after.firstSeq after.lastSeq true
      (fun seq => !stored after.msgs seq) order) := by
  have start : Consumer.purgeStart after.firstSeq after.lastSeq true = after.firstSeq := by
    rw [Consumer.purgeStart, if_neg (fun both => by cases both.2)]
  refine ⟨fun sm inside _ ahead => ?_, fun sm inside there => ?_⟩
  · have := h.low sm inside
    rw [purge_sseq leader, start]
    omega
  · rw [purge_pending leader _ _ visits, start]
    refine ⟨there, fun taken => ?_⟩
    rcases taken.2 with below | ⟨_, gone⟩
    · have := h.low sm inside
      omega
    · dsimp only at gone
      rw [stored_iff.mpr ⟨sm, inside, rfl⟩] at gone
      cases gone

/-! What is left in the store. -/

theorem purgeFrom_lastSeq (eq : Bytes → Bool) (limit : Nat) (seqs : List Nat) (ms : MemStore)
    (purged : Nat) : (purgeFrom eq limit seqs ms purged).1.lastSeq = ms.lastSeq := by
  induction seqs generalizing ms purged with
  | nil => rfl
  | cons seq rest ih =>
    rw [purgeFrom]
    split
    · exact ih ms purged
    rename_i sm _
    split
    · have kept := Consistent.removeMsg_lastSeq ms sm.seq
      generalize ms.removeMsg sm.seq = r at kept ⊢
      obtain ⟨after, removed⟩ := r
      cases removed with
      | true =>
        dsimp only
        split
        · exact kept
        · exact (ih after _).trans kept
      | false => exact (ih after purged).trans kept
    · exact ih ms purged

/-- What the filtered purge reads as its bound: a sequence of 1 is none. -/
def purgeBound (sequence : Nat) : Nat := if sequence = 1 then 0 else sequence

theorem purgeEx_filtered_removes (h : Consistent ms) (spans : Spans tree ms.fss)
    {req : PurgeRequest} (reads : ReadsSubject ms tree req.subject)
    (either : req.sequence = 0 ∨ req.keep = 0)
    (filtered : ¬ (req.subject = [] ∨ req.subject = fwcs)) :
    Removes ms (asked ms.msgs req.subject (purgeBound req.sequence) req.keep)
      (ms.purgeEx tree iter req.subject req.sequence req.keep) := by
  have same : ms.purgeEx tree iter req.subject req.sequence req.keep =
      ms.purgeEx tree iter req.subject (purgeBound req.sequence) req.keep := by
    by_cases one : req.sequence = 1
    · rw [purgeBound, if_pos one, one]
      simp [purgeEx, filtered]
    · rw [purgeBound, if_neg one]
  have bound : purgeBound req.sequence ≠ 1 := by
    rw [purgeBound]
    split <;> omega
  have either' : purgeBound req.sequence = 0 ∨ req.keep = 0 := by
    rw [purgeBound]
    split <;> omega
  rw [same]
  refine (purgeEx_filtered h spans reads either' filtered).mpr ?_
  rw [PurgesAsked, if_neg filtered]
  exact fun one => absurd one bound

theorem purgeEx_filtered_lastSeq (h : Consistent ms) {subject : Bytes}
    (filtered : ¬ (subject = [] ∨ subject = fwcs)) (sequence keep : Nat) :
    (ms.purgeEx tree iter subject sequence keep).1.lastSeq = ms.lastSeq := by
  obtain ⟨_, fss, frame⟩ := filteredState_store h tree iter 1 subject
  rw [purgeEx, if_neg filtered]
  generalize ms.filteredState tree iter 1 subject = r at frame ⊢
  obtain ⟨base, ss⟩ := r
  have same : base.lastSeq = ms.lastSeq := (congrArg lastSeq frame :)
  dsimp only
  split
  · split
    · exact same
    · exact (purgeFrom_lastSeq _ _ _ _ _).trans same
  · exact same

/-- A message of the purged subject that the purge keeps. -/
def Stays (ms : MemStore) (req : PurgeRequest) (sm : StoreMsg) : Prop :=
  filterMatches req.subject sm.subj = true ∧
    asked ms.msgs req.subject (purgeBound req.sequence) req.keep sm = false

/-- One of the kept messages is at or below a sequence; without any the end of the stream is. -/
def Reached (ms : MemStore) (req : PurgeRequest) (n : Nat) : Prop :=
  (∃ sm ∈ ms.msgs, Stays ms req sm ∧ sm.seq ≤ n) ∨
    (∀ sm ∈ ms.msgs, ¬ Stays ms req sm) ∧ ms.lastSeq < n

/-- The messages of other subjects that the consumer has still to deliver, or waits for, come after
a message that the purge keeps. -/
def Follow (ms : MemStore) (req : PurgeRequest) (o : Consumer) : Prop :=
  ∀ sm ∈ ms.msgs, filterMatches req.subject sm.subj = false →
    (o.Wants sm.subj → o.sseq ≤ sm.seq → Reached ms req sm.seq) ∧
    ((Table.get o.pending sm.seq).isSome = true → Reached ms req (max sm.seq o.asflr))

/-- This matters if one of the filters is within the purged subject. -/
def OthersFollow (ms : MemStore) (preq : Option PurgeRequest) (o : Consumer) : Prop :=
  ∀ req ∈ preq, req.subject ≠ [] → o.isEqualOrSubsetMatch req.subject = true → Follow ms req o

/-- What the purge of a subject that is not all of them reads, before and after it. -/
structure Reads (ms : MemStore) (tree left : FssTree) (iter : List StoreMsg)
    (req : PurgeRequest) : Prop where
  purge : ReadsSubject ms tree req.subject
  first : ∀ sm ∈ (ms.purgeEx tree iter req.subject req.sequence req.keep).1.msgs,
    left.visits (orAll req.subject) sm.subj = filterMatches req.subject sm.subj

section

variable (h : Consistent ms) (spans : Spans tree ms.fss) {req : PurgeRequest}
  (reads : Reads ms tree left iter req) (either : req.sequence = 0 ∨ req.keep = 0)
  (filtered : ¬ (req.subject = [] ∨ req.subject = fwcs))

include h spans reads either filtered

theorem purgeStart_le_iff {after : MemStore}
    (purged : after = (ms.purgeEx tree iter req.subject req.sequence req.keep).1)
    (left_spans : Spans left after.fss) (n : Nat) :
    Consumer.purgeStart (after.filteredState left iter after.firstSeq req.subject).2.first
        after.lastSeq false ≤ n ↔ Reached ms req n := by
  have removes := @purgeEx_filtered_removes ms tree iter h spans req reads.purge either filtered
  have last := @purgeEx_filtered_lastSeq ms tree iter h _ filtered req.sequence req.keep
  have remaining := removes.left
  have visits := reads.first
  rw [← purged] at last remaining visits
  have consistent : Consistent after := by
    rw [purged]
    exact removes.consistent
  have whole := (filteredState_whole consistent consistent.low iter req.subject left_spans).of_visits
    filtered visits
  have stays : ∀ sm, sm ∈ ms.msgs ∧ Stays ms req sm ↔
      sm ∈ after.msgs ∧ filterMatches req.subject sm.subj = true := by
    intro sm
    rw [remaining, Stays]
    constructor
    · exact fun ⟨inside, good, kept⟩ => ⟨⟨inside, kept⟩, good⟩
    · exact fun ⟨⟨inside, kept⟩, good⟩ => ⟨inside, good, kept⟩
  by_cases some : ∃ sm ∈ after.msgs, filterMatches req.subject sm.subj = true
  · obtain ⟨sm, inside, good⟩ := some
    obtain ⟨⟨first, there, matches_, same⟩, least⟩ := whole.first sm inside good
    have positive := consistent.positive first there
    rw [Consumer.purgeStart, if_neg (fun both => by omega), ← same]
    constructor
    · intro low
      have kept := (stays first).mpr ⟨there, matches_⟩
      exact .inl ⟨first, kept.1, kept.2, low⟩
    · rintro (⟨other, member, kept, low⟩ | ⟨none, _⟩)
      · obtain ⟨stored, other_good⟩ := (stays other).mp ⟨member, kept⟩
        have := least ⟨other, stored, other_good, rfl⟩
        omega
      · have kept := (stays sm).mpr ⟨inside, good⟩
        exact absurd kept.2 (none sm kept.1)
  have none : ∀ sm ∈ ms.msgs, ¬ Stays ms req sm := by
    intro sm inside kept
    obtain ⟨there, good⟩ := (stays sm).mp ⟨inside, kept⟩
    exact some ⟨sm, there, good⟩
  have absent : ∀ sm ∈ after.msgs, filterMatches req.subject sm.subj = false := by
    intro sm inside
    rw [Bool.eq_false_iff]
    exact fun good => some ⟨sm, inside, good⟩
  rw [whole.absent filtered absent, Consumer.purgeStart, if_pos ⟨rfl, rfl⟩, last]
  constructor
  · exact fun low => .inr ⟨none, low⟩
  · rintro (⟨sm, inside, kept, _⟩ | ⟨_, low⟩)
    · exact absurd kept (none sm inside)
    · exact low

/-- The filtered case: the start comes from the purged subject, whatever the consumer wants. -/
theorem subset_loses_nothing_iff (leader : o.leader = true) (visits : Visits order o)
    {after : MemStore}
    (purged : after = (ms.purgeEx tree iter req.subject req.sequence req.keep).1)
    (left_spans : Spans left after.fss) :
    LosesNothing after o
        (o.purge (after.filteredState left iter after.firstSeq req.subject).2.first after.lastSeq
          false (fun seq => !stored after.msgs seq) order) ↔ Follow ms req o := by
  have remaining :=
    (@purgeEx_filtered_removes ms tree iter h spans req reads.purge either filtered).left
  rw [← purged] at remaining
  rw [purge_loses_nothing_iff leader visits]
  simp only [purgeStart_le_iff h spans reads either filtered purged left_spans]
  constructor
  · intro reached sm inside other
    -- What the purge is not about stays in the store.
    exact reached sm ((remaining sm).mpr ⟨inside, by simp [asked, other]⟩)
  · intro reached sm inside
    obtain ⟨there, kept⟩ := (remaining sm).mp inside
    by_cases other : filterMatches req.subject sm.subj = false
    · exact reached sm there other
    · have stays : Stays ms req sm := ⟨Bool.not_eq_false _ ▸ other, kept⟩
      exact ⟨fun _ _ => .inl ⟨sm, there, stays, le_refl _⟩,
        fun _ => .inl ⟨sm, there, stays, le_max_left _ _⟩⟩

end

theorem LosesNothing.congr {after other : MemStore} (same : after.msgs = other.msgs)
    {o o' : Consumer} : LosesNothing after o o' ↔ LosesNothing other o o' := by
  constructor
  · rintro ⟨undelivered, pending⟩
    exact ⟨same ▸ undelivered, same ▸ pending⟩
  · rintro ⟨undelivered, pending⟩
    exact ⟨same ▸ undelivered, same ▸ pending⟩

theorem all_loses_nothing {after : MemStore} (consistent : Consistent after)
    (spans : Spans left after.fss) (leader : o.leader = true) (visits : Visits order o) :
    LosesNothing after o
      (o.purge (after.filteredState left iter after.firstSeq fwcs).2.first after.lastSeq false
        (fun seq => !stored after.msgs seq) order) := by
  have whole := filteredState_whole consistent consistent.low iter fwcs spans
  refine purge_from_first leader visits (fun sm inside => ?_)
  have good : treeReads left fwcs sm.subj = true := rfl
  obtain ⟨⟨first, there, _, same⟩, least⟩ := whole.first sm inside good
  exact ⟨same ▸ consistent.positive first there, least ⟨sm, inside, good, rfl⟩⟩

section

variable (h : Consistent ms) (spans : Spans tree ms.fss) (preq : Option PurgeRequest)
  (word : ∀ req ∈ preq, req.sequence < 2 ^ 64)
  (either : ∀ req ∈ preq, req.sequence = 0 ∨ req.keep = 0)
  (left_spans : Spans left (purgedStore ms tree preq iter).fss)
  (reads : ∀ req ∈ preq, ¬ (req.subject = [] ∨ req.subject = fwcs) →
    o.isEqualOrSubsetMatch req.subject = true → Reads ms tree left iter req)

include h spans word either left_spans reads

theorem purgeConsumer_iff (leader : o.leader = true) (visits : Visits order o) :
    LosesNothing (purgeStore ms tree left preq iter).1 o
        (purgeConsumer (purgeStore ms tree left preq iter).1 preq
          (purgeStore ms tree left preq iter).2 order o) ↔ OthersFollow ms preq o := by
  cases preq with
  | none =>
    refine iff_of_true ?_ (fun req member => by cases member)
    exact purge_from_first leader visits (fun sm inside => by cases inside)
  | some req =>
    have follow : OthersFollow ms (some req) o ↔ (req.subject ≠ [] →
        o.isEqualOrSubsetMatch req.subject = true → Follow ms req o) :=
      ⟨fun all => all req rfl, fun one other same => Option.some.inj same ▸ one⟩
    have consistent := (@purgeEx_sub ms tree iter req.subject h _ (word req rfl) req.keep).1
    rw [purgedStore] at left_spans
    rw [follow, purgeStore, purgeConsumer, purgedStore]
    generalize purged : (ms.purgeEx tree iter req.subject req.sequence req.keep).1 = after
    rw [purged] at consistent left_spans
    dsimp only
    by_cases empty : req.subject = []
    · rw [if_pos empty, if_pos (.inl empty)]
      refine iff_of_true ?_ (fun some => absurd empty some)
      exact purge_from_first leader visits (fun sm inside =>
        ⟨Consistent.first_positive consistent inside, consistent.low sm inside⟩)
    obtain ⟨_, fss, frame⟩ :=
      filteredState_store consistent left iter after.firstSeq req.subject
    have everything : req.subject = fwcs → LosesNothing after o
        (o.purge (after.filteredState left iter after.firstSeq req.subject).2.first after.lastSeq
          false (fun seq => !stored after.msgs seq) order) :=
      fun all => all ▸ all_loses_nothing consistent left_spans leader visits
    have subset := fun filtered narrow => @subset_loses_nothing_iff ms tree left iter o order h
      spans req (reads req rfl filtered narrow) (either req rfl) filtered leader visits after
      purged.symm left_spans
    have wider := @purge_wider o order after consistent leader visits
    rw [if_neg empty]
    generalize after.filteredState left iter after.firstSeq req.subject = r
      at frame everything subset ⊢
    obtain ⟨final, ss⟩ := r
    have msgs : final.msgs = after.msgs := (congrArg msgs frame :)
    have first : final.firstSeq = after.firstSeq := (congrArg firstSeq frame :)
    have last : final.lastSeq = after.lastSeq := (congrArg lastSeq frame :)
    dsimp only
    rw [LosesNothing.congr msgs, msgs, first, last]
    simp only [empty, false_or, ne_eq, not_false_eq_true, forall_const]
    split
    next narrow =>
      by_cases all : req.subject = fwcs
      · refine iff_of_true (everything all) (fun _ sm _ other => ?_)
        rw [filterMatches_all (.inr all)] at other
        cases other
      · rw [subset (fun either => either.elim empty all) narrow]
        exact ⟨fun follows _ => follows, fun follows => follows narrow⟩
    next narrow =>
      refine iff_of_true ?_ (fun some => absurd some narrow)
      split
      · exact wider
      · exact .refl _ _

end

end Stream

def oneOfEach : List Op := [.storeMsg (ascii "a") [] [] 1, .storeMsg (ascii "b") [] [] 2]

def bothSubjects : Consumer := newConsumer explicitAcks [ascii "a", ascii "b"]

/-- After the delivery of both messages. -/
def bothDelivered : Consumer :=
  { (bothSubjects.deliverMsg 1 1 1 1).deliverMsg 2 2 1 2 with sseq := 3 }

end LinearNats.JetStream
