import LinearNats.LittleEndian
import LinearNats.Store.Purge

/-! Where the bounds of a memory store are when its last message has gone, and how many deleted
messages its three reports then speak of. -/
namespace LinearNats.Store
open Server Scan LittleEndian List MemStore

structure StreamState where
  msgs : Nat
  bytes : Nat
  firstSeq : Nat
  lastSeq : Nat
  numSubjects : Nat
  deleted : List Nat
  numDeleted : Int

def StreamState.zero : StreamState := ⟨0, 0, 0, 0, 0, [], 0⟩

def streamStateMagic : UInt8 := 42
def streamStateVersion : UInt8 := 1

namespace MemStore

/-- The sequences without a message, as a 64-bit difference that is read as a signed number. -/
def interiorDeleted (ms : MemStore) : Int :=
  ((ms.lastSeq : Int) - ms.firstSeq + 1 - ms.stateMsgs).bmod (2 ^ 64)

/-- What the caller's record says of deleted messages stays when the bounds meet. -/
def fastState (ms : MemStore) (state : StreamState) : StreamState :=
  { state with
    msgs := ms.stateMsgs
    bytes := ms.stateBytes
    firstSeq := ms.firstSeq
    lastSeq := ms.lastSeq
    numSubjects := ms.fss.length
    numDeleted := if ms.firstSeq < ms.lastSeq then max ms.interiorDeleted 0 else state.numDeleted }

/-- The deleted sequences outside the bounds are forgotten on the way. -/
def state (ms : MemStore) : MemStore × StreamState :=
  let inside := ms.dmap.filter (fun seq => ms.firstSeq ≤ seq ∧ seq ≤ ms.lastSeq)
  let deleted := if 0 < ms.interiorDeleted then inside.sort else []
  ({ ms with dmap := if 0 < ms.interiorDeleted then inside else ms.dmap },
    ⟨ms.stateMsgs, ms.stateBytes, ms.firstSeq, ms.lastSeq, ms.fss.length, deleted, deleted.length⟩)

def encodedNumDeleted (ms : MemStore) : Nat := (max ms.interiorDeleted 0).toNat

def encodedStreamState (encode : Finset Nat → Bytes) (ms : MemStore) (failed : Nat) : Bytes :=
  [streamStateMagic, streamStateVersion] ++
    [ms.stateMsgs, ms.stateBytes, ms.firstSeq, ms.lastSeq, failed,
      ms.encodedNumDeleted].flatMap (putUvarint 10) ++
    if 0 < ms.encodedNumDeleted then encode ms.dmap else []

end MemStore

structure ReportsNone (ms : MemStore) : Prop where
  fast : (ms.fastState .zero).numDeleted = 0
  full : ms.state.2.numDeleted = 0 ∧ ms.state.2.deleted = []
  encoded : ∀ encode failed, ms.encodedStreamState encode failed =
    [streamStateMagic, streamStateVersion] ++
      [ms.stateMsgs, ms.stateBytes, ms.firstSeq, ms.lastSeq, failed, 0].flatMap (putUvarint 10)

/-- A store whose sequences are used but hold no message points past its end. -/
def Ended (ms : MemStore) : Prop := ms.msgs = [] → 0 < ms.lastSeq → ms.firstSeq = ms.lastSeq + 1

theorem reportsNone {ms : MemStore} (h : Consistent ms) (empty : ms.msgs = [])
    (past : ms.firstSeq = ms.lastSeq + 1) : ReportsNone ms := by
  have none_ : ms.stateMsgs = 0 := by rw [h.count, empty, length_nil]
  have zero : ms.interiorDeleted = 0 := by
    rw [interiorDeleted, none_, past]
    have difference : (ms.lastSeq : Int) - (ms.lastSeq + 1 : Nat) + 1 - (0 : Nat) = 0 := by omega
    rw [difference]
    rfl
  refine ⟨?_, ?_, fun encode failed => ?_⟩
  · rw [fastState, past, zero]
    simp [StreamState.zero]
  · simp [state, zero]
  · simp [encodedStreamState, encodedNumDeleted, zero]

/-- A property that the totals do not touch and that every removal and every new message keeps. -/
structure Stable (P : MemStore → Prop) : Prop where
  totals : ∀ {ms}, P ms → ∀ fss, P { ms with fss := fss }
  removeMsg : ∀ {ms}, Consistent ms → P ms → ∀ seq, P (ms.removeMsg seq).1
  addMsg : ∀ {ms sm}, Consistent ms → P ms → sm.seq = ms.lastSeq + 1 → P (ms.addMsg sm)

namespace Stable

variable {P : MemStore → Prop} {ms : MemStore} {sm : StoreMsg}

theorem refresh (stable : Stable P) (holds : P ms) (subj : Bytes) (ss : SimpleState) :
    P (ms.refresh subj ss).1 := by
  rw [MemStore.refresh]
  split
  · exact stable.totals holds _
  · exact holds

theorem kept (stable : Stable P) : Kept (fun ms => Consistent ms ∧ P ms) where
  refresh both entry := ⟨(both.1.refresh entry).1, stable.refresh both.2 _ _⟩
  removeMsg both seq := ⟨both.1.removeMsg seq, stable.removeMsg both.1 both.2 seq⟩

section

variable (stable : Stable P) (h : Consistent ms) (holds : P ms)

include stable h holds

theorem trackSubject (next : sm.seq = ms.lastSeq + 1) (room : sm.seq + 1 < 2 ^ 64) :
    P ((ms.addMsg sm).trackSubject sm.subj sm.seq) := by
  have added := stable.addMsg h holds next
  rw [MemStore.trackSubject]
  split
  · exact added
  have fss : (ms.addMsg sm).fss = ms.fss := rfl
  rw [fss]
  cases entry : Table.get ms.fss sm.subj with
  | none => exact stable.totals added _
  | some ss =>
    dsimp only
    split
    · exact (stable.kept.enforcePerSubjectLimit
        ⟨h.addTracked next room entry, stable.totals added _⟩ _ _).2
    · exact stable.totals added _

theorem storeRawMsg (room : ms.lastSeq + 2 < 2 ^ 64) (subj hdr msg : Bytes) (seq : Nat) (ts : Int)
    (check : Bool) {r : MemStore × Option StoreErr} (result : ms.storeRawMsg subj hdr msg seq ts check = some r) :
    P r.1 := by
  obtain ⟨fss, _, _, checked, ⟨_, same⟩ | ⟨_, _, _, first, second, same⟩⟩ :=
    h.storeRawMsg_cases room subj hdr msg seq ts check
  · cases result.symm.trans same
    exact stable.totals holds fss
  · cases result.symm.trans same
    have tracked := @trackSubject _ _ ⟨subj, hdr, msg, ms.lastSeq + 1, ts⟩ stable checked
      (stable.totals holds fss) rfl room
    exact (stable.kept.enforceBytesLimit
      (stable.kept.enforceMsgLimit ⟨checked.trackSubject rfl room, tracked⟩ first) second).2

theorem purgeFrom (eq : Bytes → Bool) (limit : Nat) (seqs : List Nat) (purged : Nat) :
    P (purgeFrom eq limit seqs ms purged).1 := by
  induction seqs generalizing ms purged with
  | nil => exact holds
  | cons seq rest ih =>
    rw [purgeFrom]
    split
    · exact ih h holds purged
    rename_i sm _
    split
    · have next := h.removeMsg sm.seq
      have kept := stable.removeMsg h holds sm.seq
      rcases removed : ms.removeMsg sm.seq with ⟨left, _ | _⟩
      · rw [removed] at next kept
        exact ih next kept purged
      rw [removed] at next kept
      dsimp only
      split
      · exact kept
      · exact ih next kept _
    · exact ih h holds purged

end

end Stable

section

variable {ms : MemStore}

theorem Ended.removeMsg (h : Consistent ms) (ended : Ended ms) (seq : Nat) :
    Ended (ms.removeMsg seq).1 := by
  rw [MemStore.removeMsg]
  cases found : load ms.msgs seq with
  | none => exact ended
  | some sm =>
    obtain ⟨inside, rfl⟩ := load_mem found
    have nonempty : ms.msgs ≠ [] := ne_nil_of_mem inside
    have some_ : 0 < ms.stateMsgs := h.count ▸ length_pos_iff.mpr nonempty
    simp only [some_, if_true]
    by_cases is_first : sm.seq = ms.firstSeq
    · have order := (h.bounds (h.first nonempty)).2
      have first : u64 (ms.firstSeq + 1) = ms.firstSeq + 1 := u64_of_lt (by have := h.room; omega)
      simp only [updateFirstSeq, is_first, ne_eq, not_true_eq_false, if_false, first, h.next]
      obtain ⟨_, _, _, past⟩ := h.next_first (h.first nonempty) rfl
      exact fun empty _ => past empty
    simp only [updateFirstSeq, is_first, ne_eq, not_false_eq_true, if_true]
    have kept : stored (delete ms.msgs sm.seq) ms.firstSeq = true :=
      stored_delete.mpr ⟨Ne.symm is_first, h.first nonempty⟩
    exact fun empty => absurd empty (Consistent.stored_ne_nil kept)

theorem ended_stable : Stable Ended where
  totals holds _ := holds
  removeMsg h holds seq := holds.removeMsg h seq
  addMsg {ms sm} _ _ _ := by
    intro empty _
    exact absurd empty (append_ne_nil_of_right_ne_nil _ (cons_ne_nil sm []))

theorem Ended.emptied (ms : MemStore) {last : Nat} (room : last + 1 < 2 ^ 64) :
    Ended (ms.emptied (u64 (last + 1)) last) :=
  fun _ _ => u64_of_lt room

theorem Ended.skipMsgs (h : Consistent ms) (ended : Ended ms) (seq : Nat) {num : Nat}
    (room : ms.lastSeq + num + 1 < 2 ^ 64) : Ended (ms.skipMsgs seq num).1 := by
  rw [MemStore.skipMsgs]
  split
  · exact ended
  simp only [h.next, Consistent.skipped_last room]
  split
  · exact fun _ _ => u64_of_lt room
  next some_ => exact fun empty => absurd empty (h.nonempty_of_count some_)

theorem Ended.skipMsg (h : Consistent ms) (ended : Ended ms) (seq : Nat)
    (room : ms.lastSeq + 2 < 2 ^ 64) : Ended (ms.skipMsg seq).1 := by
  rw [MemStore.skipMsg]
  split
  · exact ended
  simp only [h.next]
  split
  · exact fun _ _ => u64_of_lt room
  next some_ => exact fun empty => absurd empty (h.nonempty_of_count some_)

/-- A compaction inside the bounds that no message is at or above. -/
def Strands (ms : MemStore) (seq : Nat) : Prop :=
  0 < seq ∧ ms.firstSeq ≤ seq ∧ seq ≤ ms.lastSeq ∧ ∀ sm ∈ ms.msgs, sm.seq < seq

instance (ms : MemStore) (seq : Nat) : Decidable (Strands ms seq) :=
  inferInstanceAs (Decidable (_ ∧ _ ∧ _ ∧ _))

theorem Ended.compact (h : Consistent ms) (ended : Ended ms) {seq : Nat} (word : seq < 2 ^ 64)
    (holds : ¬ Strands ms seq) : Ended (ms.compact seq).1 := by
  by_cases positive : 0 < seq
  · by_cases before : seq < ms.firstSeq
    · rw [MemStore.compact, if_neg (by omega), if_pos before]
      exact ended
    by_cases past : ms.lastSeq < seq
    · rw [MemStore.compact, if_neg (by omega), if_neg before, if_neg (by omega)]
      exact fun _ _ => (Nat.sub_add_cancel positive).symm
    -- A message at or above the sequence stays.
    have above : ∃ sm ∈ ms.msgs, seq ≤ sm.seq := by
      by_contra none_
      refine holds ⟨positive, by omega, by omega, fun sm inside => ?_⟩
      by_contra high
      exact none_ ⟨sm, inside, by omega⟩
    obtain ⟨sm, inside, high⟩ := above
    have kept := ((h.compact_removes positive word).left sm).mpr ⟨inside, by simpa using high⟩
    exact fun empty => absurd empty (ne_nil_of_mem kept)
  · obtain rfl : seq = 0 := by omega
    exact Ended.emptied ms h.room

theorem compact_strands (h : Consistent ms) {seq : Nat} (strands : Strands ms seq) :
    (ms.compact seq).1.msgs = [] ∧ (ms.compact seq).1.firstSeq = ms.firstSeq ∧
      (ms.compact seq).1.lastSeq = ms.lastSeq := by
  obtain ⟨positive, low, high, below⟩ := strands
  refine ⟨?_, ?_⟩
  · rw [eq_nil_iff_forall_not_mem]
    intro sm inside
    obtain ⟨there, above⟩ := ((h.compact_removes positive (by have := h.word; omega)).left sm).mp inside
    simp [below sm there] at above
  · have nothing : firstIn (stored ms.msgs) seq ms.lastSeq = none := by
      rw [firstIn_none]
      intro m above _
      rw [Bool.eq_false_iff]
      intro there
      obtain ⟨sm, inside, rfl⟩ := stored_iff.mp there
      have := below sm inside
      omega
    rw [compact, if_neg (by omega), if_neg (by omega), if_pos high, nothing]
    have dropped := dropSeqs_dropped
      (List.range' ms.firstSeq (ms.lastSeq + 1 - ms.firstSeq)).reverse h.sorted h.index h.clear
    dsimp only
    generalize dropSeqs _ ms = r at dropped ⊢
    have frame := dropped.frame
    constructor
    · change r.1.firstSeq = ms.firstSeq
      rw [frame]
    · change r.1.lastSeq = ms.lastSeq
      rw [frame]

theorem Ended.truncate (h : Consistent ms) (ended : Ended ms) {seq : Nat}
    (low : ms.firstSeq ≤ seq) (high : seq ≤ ms.lastSeq) : Ended (ms.truncate seq) := by
  rw [MemStore.truncate]
  split
  · exact fun _ used => absurd used (lt_irrefl 0)
  rename_i positive
  have nonempty : ms.msgs ≠ [] := by
    intro empty
    have := ended empty (by omega)
    omega
  have dropped := dropSeqs_dropped (List.range' (seq + 1) (ms.lastSeq - seq)).reverse h.sorted
    h.index h.clear
  dsimp only
  generalize dropSeqs _ ms = r at dropped ⊢
  have kept : stored r.1.msgs ms.firstSeq = true := by
    refine (Consistent.stored_dropped dropped ms.firstSeq).mpr ⟨h.first nonempty, ?_⟩
    rw [Consistent.mem_down]
    omega
  exact fun empty => absurd empty (Consistent.stored_ne_nil kept)

end

/-- The calls of a run, with the purges of a part of the messages; `tree` is the subject tree at
that time, and `iter` the order in which the map is iterated. -/
inductive Change where
  | call (op : Op)
  | purgeEx (tree : FssTree) (iter : List StoreMsg) (subject : Bytes)
    (sequence keep : Nat)

namespace MemStore

def change (ms : MemStore) : Change → Option MemStore
  | .call op => ms.apply op
  | .purgeEx tree iter subject sequence keep => some (ms.purgeEx tree iter subject sequence keep).1

def compactsTo (ms : MemStore) : Change → Option Nat
  | .call (.compact seq) => some seq
  | .purgeEx _ _ subject sequence keep =>
    if subject = [] ∨ subject = fwcs then
      if 1 < sequence then some sequence
      else if 0 < keep ∧ keep < ms.stateMsgs then some (ms.lastSeq - keep + 1)
      else none
    else none
  | _ => none

end MemStore

def changeStep (s : Option MemStore) (c : Change) : Option MemStore :=
  s.bind (fun ms => ms.change c)

def AllowedChange (s : Option MemStore) : Change → Prop
  | .call op => Allowed lastWord s op
  | .purgeEx _ _ _ sequence _ => sequence < 2 ^ 64

instance (s : Option MemStore) : ∀ c, Decidable (AllowedChange s c)
  | .call op => inferInstanceAs (Decidable (Allowed lastWord s op))
  | .purgeEx _ _ _ sequence _ => inferInstanceAs (Decidable (sequence < 2 ^ 64))

/-- No compaction goes to a sequence inside the bounds with no message at or above it. -/
def LeavesOne (s : Option MemStore) (c : Change) : Prop :=
  ∀ ms ∈ s, ∀ seq ∈ ms.compactsTo c, ¬ Strands ms seq

/-- No panic, and an emptied store points past its end and reports nothing deleted. -/
def PointsPastEnd (s : Option MemStore) : Prop :=
  ∃ ms, s = some ms ∧ (ms.msgs = [] → 0 < ms.lastSeq →
    ms.firstSeq = ms.lastSeq + 1 ∧ ReportsNone ms)

section

variable {ms : MemStore}

theorem Ended.apply (h : Consistent ms) (ended : Ended ms) {op : Op}
    (allowed : Allowed lastWord (some ms) op) (leaves : LeavesOne (some ms) (.call op))
    {next : MemStore} (result : ms.apply op = some next) : Ended next := by
  obtain ⟨below, inside⟩ := allowed ms rfl
  rw [lastWord] at below
  cases op with
  | storeMsg subj hdr msg ts =>
    obtain ⟨r, stored_, rfl⟩ := Option.map_eq_some_iff.mp result
    exact ended_stable.storeRawMsg h ended (by rw [Op.lastUsed] at below; omega) subj hdr msg _ ts
      true stored_
  | storeRawMsg subj hdr msg seq ts check =>
    obtain ⟨r, stored_, rfl⟩ := Option.map_eq_some_iff.mp result
    exact ended_stable.storeRawMsg h ended (by rw [Op.lastUsed] at below; omega) subj hdr msg seq ts
      check stored_
  | skipMsg seq =>
    cases result
    exact ended.skipMsg h seq (by rw [Op.lastUsed] at below; omega)
  | skipMsgs seq num =>
    cases result
    exact ended.skipMsgs h seq (by rw [Op.lastUsed] at below; omega)
  | removeMsg seq =>
    cases result
    exact ended.removeMsg h seq
  | eraseMsg seq =>
    cases result
    exact ended.removeMsg h seq
  | purge =>
    cases result
    exact Ended.emptied ms h.room
  | compact seq =>
    cases result
    exact ended.compact h (by rw [Op.lastUsed] at below; omega) (leaves ms rfl seq rfl)
  | truncate seq =>
    cases result
    exact ended.truncate h (inside seq rfl).1 (inside seq rfl).2

theorem Ended.purgeEx (h : Consistent ms) (ended : Ended ms)
    (tree : FssTree) (iter : List StoreMsg) (subject : Bytes)
    {sequence : Nat} (word : sequence < 2 ^ 64) (keep : Nat)
    (leaves : LeavesOne (some ms) (.purgeEx tree iter subject sequence keep)) :
    Ended (ms.purgeEx tree iter subject sequence keep).1 := by
  have room := h.room
  have leaves := leaves ms rfl
  rw [compactsTo] at leaves
  rw [MemStore.purgeEx]
  by_cases all : subject = [] ∨ subject = fwcs
  · rw [if_pos all] at leaves ⊢
    split
    · exact Ended.emptied ms h.room
    split
    next below =>
      rw [if_pos below] at leaves
      exact ended.compact h word (leaves sequence rfl)
    rename_i below
    rw [if_neg below] at leaves
    split
    next keeps =>
      split
      · exact ended
      · rename_i more
        rw [if_pos ⟨keeps, lt_of_not_ge more⟩] at leaves
        exact ended.compact h (by omega) (leaves _ rfl)
    · exact ended
  · rw [if_neg all]
    obtain ⟨consistent, fss, same⟩ := filteredState_store h tree iter 1 subject
    generalize ms.filteredState tree iter 1 subject = r at consistent same ⊢
    obtain ⟨base, ss⟩ := r
    have kept : Ended base := by
      have := ended_stable.totals ended fss
      rw [← same] at this
      exact this
    dsimp only at consistent ⊢
    split
    · split
      · exact kept
      · exact ended_stable.purgeFrom consistent kept _ _ _ _
    · exact kept

theorem change_compacts {c : Change} {seq : Nat} (compacts : seq ∈ ms.compactsTo c) :
    ms.change c = some (ms.compact seq).1 := by
  cases c with
  | call op =>
    cases op with
    | compact to_ =>
      cases compacts
      rfl
    | _ => cases compacts
  | purgeEx tree iter subject sequence keep =>
    rw [compactsTo, Option.mem_def] at compacts
    rw [change, purgeEx]
    split at compacts
    next all =>
      rw [if_pos all]
      split at compacts
      · rename_i below
        cases compacts
        rw [if_neg (by omega), if_pos below]
      rename_i below
      split at compacts
      · rename_i keeps
        cases compacts
        rw [if_neg (by omega), if_neg below, if_pos keeps.1, if_neg (by omega)]
      · cases compacts
    · cases compacts

end

def Sound (s : Option MemStore) : Prop := ∃ ms, s = some ms ∧ Consistent ms ∧ Ended ms

theorem Sound.new (cfg : StreamConfig) : Sound (some (newMemStore cfg)) := by
  refine ⟨_, rfl, Consistent.new cfg, ?_⟩
  rw [newMemStore]
  split
  next positive =>
    have positive : 0 < cfg.firstSeq.toNat := UInt64.lt_iff_toNat_lt.mp positive
    rw [purge, if_neg (by omega), if_neg (Nat.not_lt_zero _)]
    exact fun _ _ => (Nat.sub_add_cancel positive).symm
  · exact fun _ used => absurd used (lt_irrefl 0)

theorem Sound.step {s : Option MemStore} {c : Change} (sound : Sound s)
    (allowed : AllowedChange s c) (leaves : LeavesOne s c) : Sound (changeStep s c) := by
  obtain ⟨ms, rfl, h, ended⟩ := sound
  cases c with
  | call op =>
    obtain ⟨next, result, consistent⟩ := h.apply le_rfl op allowed
    exact ⟨next, result, consistent, ended.apply h allowed leaves result⟩
  | purgeEx tree iter subject sequence keep =>
    exact ⟨_, rfl, (purgeEx_sub h allowed keep).1,
      ended.purgeEx h tree iter subject allowed keep leaves⟩

theorem Sound.pointsPastEnd {s : Option MemStore} (sound : Sound s) : PointsPastEnd s := by
  obtain ⟨ms, rfl, h, ended⟩ := sound
  refine ⟨ms, rfl, fun empty used => ?_⟩
  have past := ended empty used
  exact ⟨past, reportsNone h empty past⟩

theorem Sound.strands {s : Option MemStore} {c : Change} (sound : Sound s)
    (fails : ¬ LeavesOne s c) : ¬ PointsPastEnd (changeStep s c) := by
  obtain ⟨ms, rfl, h, _⟩ := sound
  simp only [LeavesOne, Option.mem_some_iff, forall_eq', not_forall, not_not] at fails
  obtain ⟨seq, compacts, strands⟩ := fails
  have after : changeStep (some ms) c = some (ms.compact seq).1 := change_compacts compacts
  obtain ⟨empty, first, last⟩ := compact_strands h strands
  rintro ⟨next, result, past⟩
  rw [after] at result
  cases result
  have bounds := (past empty (by have := strands.2.2.1; have := strands.1; omega)).1
  have := strands.2.1
  have := strands.2.2.1
  omega

instance (s : Option MemStore) (c : Change) : Decidable (LeavesOne s c) :=
  inferInstanceAs (Decidable (∀ ms ∈ s, ∀ seq ∈ ms.compactsTo c, ¬ Strands ms seq))

def stranding : List Change :=
  [.call (.storeMsg (ascii "a") [] [] 1), .call (.storeMsg (ascii "a") [] [] 2), .call (.skipMsg 0),
   .call (.compact 3)]

/-- The tree of a store with messages of `a` only. -/
def onlyA : FssTree :=
  ((Stree.treeOf [(ascii "a", ⟨1, 3, 3, false, false⟩)]).toOption).getD .empty

def emptying : List Change :=
  [.call (.storeMsg (ascii "a") [] [] 1), .call (.storeMsg (ascii "b") [] [] 2),
   .call (.storeMsg (ascii "a") [] [] 3), .purgeEx .empty [] [] 0 2,
   .purgeEx onlyA [] (ascii "a") 0 0,
   .call (.compact 2), .call (.removeMsg 2), .call (.skipMsg 0), .call (.compact 9)]

end LinearNats.Store
