import LinearNats.Store.Consistent

/-! Runs of the memory store: after any operations its counters, its deleted sequences and its
per-subject totals say exactly what is stored. -/
namespace LinearNats.Store
open Server MemStore

inductive Op where
  | storeMsg (subj hdr msg : Bytes) (ts : Int)
  | storeRawMsg (subj hdr msg : Bytes) (seq : Nat) (ts : Int) (discardNewCheck : Bool)
  | skipMsg (seq : Nat)
  | skipMsgs (seq num : Nat)
  | removeMsg (seq : Nat)
  | eraseMsg (seq : Nat)
  | purge
  | compact (seq : Nat)
  | truncate (seq : Nat)

/-- One call; an erased message is overwritten before it goes, which leaves the same store. -/
def MemStore.apply (ms : MemStore) : Op → Option MemStore
  | .storeMsg subj hdr msg ts => (ms.storeMsg subj hdr msg ts).map Prod.fst
  | .storeRawMsg subj hdr msg seq ts check =>
    (ms.storeRawMsg subj hdr msg seq ts check).map Prod.fst
  | .skipMsg seq => some (ms.skipMsg seq).1
  | .skipMsgs seq num => some (ms.skipMsgs seq num).1
  | .removeMsg seq => some (ms.removeMsg seq).1
  | .eraseMsg seq => some (ms.removeMsg seq).1
  | .purge => some (ms.purge 0).1
  | .compact seq => some (ms.compact seq).1
  | .truncate seq => some (ms.truncate seq)

/-- A run after a panic does nothing more. -/
def step (s : Option MemStore) (op : Op) : Option MemStore := s.bind (fun ms => ms.apply op)

/-- The subject that a call stores a message on. -/
def Op.stores : Op → Option Bytes
  | .storeMsg subj .. => some subj
  | .storeRawMsg subj .. => some subj
  | _ => none

def Op.truncates : Op → Option Nat
  | .truncate seq => some seq
  | _ => none

/-- No call leaves a larger last sequence than this. -/
def Op.lastUsed (ms : MemStore) : Op → Nat
  | .storeMsg .. => ms.lastSeq + 1
  | .storeRawMsg .. => ms.lastSeq + 1
  | .skipMsg _ => ms.lastSeq + 1
  | .skipMsgs _ num => ms.lastSeq + num
  | .compact seq => max ms.lastSeq (seq - 1)
  | _ => ms.lastSeq

/-- The sequences stay below `top`, and a truncation goes to a sequence between the first and the
last one. -/
def Allowed (top : Nat) (s : Option MemStore) (op : Op) : Prop :=
  ∀ ms ∈ s, op.lastUsed ms < top ∧ ∀ seq ∈ op.truncates, ms.firstSeq ≤ seq ∧ seq ≤ ms.lastSeq

instance (top : Nat) (s : Option MemStore) (op : Op) : Decidable (Allowed top s op) :=
  inferInstanceAs (Decidable (∀ ms ∈ s, _ ∧ ∀ seq ∈ op.truncates, _))

/-- The last sequence has one after it. -/
def lastWord : Nat := 2 ^ 64 - 1

/-- The deleted sequences are kept in blocks of 2048, and the last block does not hold its own. -/
def lastBlock : Nat := 2 ^ 64 - 2048

/-- The counters, the bounds, the deleted sequences and the tree, read off the messages. -/
structure Exact (ms : MemStore) : Prop where
  distinct : (ms.msgs.map StoreMsg.seq).Nodup
  count : ms.stateMsgs = ms.msgs.length
  bytes : ms.stateBytes = (ms.msgs.map StoreMsg.size).sum
  first : ms.msgs ≠ [] → IsLeast {n | stored ms.msgs n = true} ms.firstSeq
  last : ∀ n, stored ms.msgs n = true → n ≤ ms.lastSeq
  deleted : ms.msgs ≠ [] → ∀ n,
    n ∈ ms.dmap ↔ ms.firstSeq ≤ n ∧ n ≤ ms.lastSeq ∧ stored ms.msgs n = false
  subjects : ∀ subj, (Table.get ms.fss subj).isSome ↔ ∃ sm ∈ ms.msgs, sm.subj = subj
  number : ∀ subj ss, Table.get ms.fss subj = some ss →
    ss.msgs = ms.msgs.countP (fun sm => sm.subj = subj)
  ends : ∀ subj ss, Table.get ms.fss subj = some ss →
    IsLeast {n | ∃ sm ∈ ms.msgs, sm.subj = subj ∧ sm.seq = n}
        (ms.recalculateForSubj subj ss).first ∧
      IsGreatest {n | ∃ sm ∈ ms.msgs, sm.subj = subj ∧ sm.seq = n}
        (ms.recalculateForSubj subj ss).last

theorem Sorted.nodup {msgs : List StoreMsg} (sorted : Sorted msgs) :
    (msgs.map StoreMsg.seq).Nodup := by
  rw [List.Nodup, List.pairwise_map]
  exact sorted.imp (fun order => ne_of_lt order)

theorem Sorted.card_seqsOf {msgs : List StoreMsg} (sorted : Sorted msgs) (subj : Bytes) :
    (seqsOf msgs subj).card = msgs.countP (fun sm => sm.subj = subj) := by
  have nodup := sorted.nodup.sublist
    ((List.filter_sublist (p := fun sm => decide (sm.subj = subj))).map StoreMsg.seq)
  rw [seqsOf, List.toFinset_card_of_nodup nodup, List.length_map, List.countP_eq_length_filter]

theorem Consistent.exact {ms : MemStore} (h : Consistent ms)
    (tracked : ∀ sm ∈ ms.msgs, Tracked sm.subj) : Exact ms where
  distinct := h.sorted.nodup
  count := h.count
  bytes := h.bytes
  first some := ⟨h.first some, fun _ there => (h.bounds there).1⟩
  last n there := (h.bounds there).2
  deleted some n := by
    rw [h.gaps]
    exact ⟨And.right, fun gap => ⟨some, gap⟩⟩
  subjects subj := by
    constructor
    · intro there
      obtain ⟨ss, entry⟩ := Option.isSome_iff_exists.mp there
      obtain ⟨n, inside⟩ := (h.index.entry subj ss entry).2.nonempty
      obtain ⟨sm, member, same, _⟩ := mem_seqsOf.mp inside
      exact ⟨sm, member, same⟩
    · rintro ⟨sm, member, rfl⟩
      exact h.index.present _ (tracked sm member) ⟨sm.seq, mem_seqsOf.mpr ⟨sm, member, rfl, rfl⟩⟩
  number subj ss entry := by
    rw [(h.index.entry subj ss entry).2.count, h.sorted.card_seqsOf]
  ends subj ss entry := by
    have exact := (h.index.entry subj ss entry).2.recalculateForSubj (h.scans h.word subj)
    have members : (seqsOf ms.msgs subj : Set Nat) =
        {n | ∃ sm ∈ ms.msgs, sm.subj = subj ∧ sm.seq = n} := by
      ext n
      exact mem_seqsOf
    exact members ▸ ⟨exact.first, exact.last⟩

theorem Consistent.apply {ms : MemStore} (h : Consistent ms) {top : Nat} (word : top ≤ lastWord)
    (op : Op) (allowed : Allowed top (some ms) op) :
    ∃ next, ms.apply op = some next ∧ Consistent next := by
  rw [lastWord] at word
  obtain ⟨below, inside⟩ := allowed ms rfl
  cases op with
  | storeMsg subj hdr msg ts =>
    obtain ⟨r, result, consistent⟩ := h.storeRawMsg (by rw [Op.lastUsed] at below; omega) subj hdr
      msg (u64 (ms.lastSeq + 1)) ts true
    exact ⟨r.1, by rw [MemStore.apply, MemStore.storeMsg, result, Option.map_some], consistent⟩
  | storeRawMsg subj hdr msg seq ts check =>
    obtain ⟨r, result, consistent⟩ := h.storeRawMsg (by rw [Op.lastUsed] at below; omega) subj hdr
      msg seq ts check
    exact ⟨r.1, by rw [MemStore.apply, result, Option.map_some], consistent⟩
  | skipMsg seq => exact ⟨_, rfl, h.skipMsg seq (by rw [Op.lastUsed] at below; omega)⟩
  | skipMsgs seq num => exact ⟨_, rfl, h.skipMsgs seq (by rw [Op.lastUsed] at below; omega)⟩
  | removeMsg seq => exact ⟨_, rfl, h.removeMsg seq⟩
  | eraseMsg seq => exact ⟨_, rfl, h.removeMsg seq⟩
  | purge => exact ⟨_, rfl, h.purge⟩
  | compact seq => exact ⟨_, rfl, h.compact (by rw [Op.lastUsed] at below; omega)⟩
  | truncate seq => exact ⟨_, rfl, h.truncate (inside seq rfl).1 (inside seq rfl).2⟩

theorem run_consistent (cfg : StreamConfig) {top : Nat} (word : top ≤ lastWord) (ops : List Op)
    (allowed : Along step (Allowed top) (some (newMemStore cfg)) ops) :
    ∃ ms, run step (some (newMemStore cfg)) ops = some ms ∧ Consistent ms := by
  refine along_invariant step (Allowed top) (fun s => ∃ ms, s = some ms ∧ Consistent ms) ?_
    ⟨_, rfl, Consistent.new cfg⟩ ops allowed
  rintro s op ⟨ms, rfl, consistent⟩ ok
  exact consistent.apply word op ok

/-! What a call leaves of the messages. -/

structure Shrunk (base ms : MemStore) : Prop where
  cfg : ms.cfg = base.cfg
  maxp : ms.maxp = base.maxp
  msgs : ms.msgs ⊆ base.msgs

namespace Shrunk

variable {base ms : MemStore}

theorem refl (ms : MemStore) : Shrunk ms ms := ⟨rfl, rfl, List.Subset.refl _⟩

theorem trans {third : MemStore} (first : Shrunk base ms) (next : Shrunk ms third) :
    Shrunk base third :=
  ⟨next.cfg.trans first.cfg, next.maxp.trans first.maxp, List.Subset.trans next.msgs first.msgs⟩

theorem removeMsg (ms : MemStore) (n : Nat) : Shrunk ms (ms.removeMsg n).1 := by
  rw [MemStore.removeMsg]
  split
  · exact refl ms
  · simp only [updateFirstSeq]
    split <;> split <;> exact ⟨rfl, rfl, List.filter_sublist.subset⟩

theorem refresh (ms : MemStore) (subj : Bytes) (ss : SimpleState) :
    Shrunk ms (ms.refresh subj ss).1 := by
  rw [MemStore.refresh]
  split <;> exact ⟨rfl, rfl, List.Subset.refl _⟩

theorem kept (base : MemStore) : Kept (Shrunk base) where
  refresh less _ := less.trans (refresh _ _ _)
  removeMsg less seq := less.trans (removeMsg _ seq)

theorem dropSeqs (seqs : List Nat) (ms : MemStore) : Shrunk ms (MemStore.dropSeqs seqs ms).1 := by
  induction seqs generalizing ms with
  | nil => exact refl ms
  | cons seq rest ih =>
    rw [MemStore.dropSeqs]
    split
    next sm found =>
      have less := ih { ms with
        fss := removeSeqPerSubject ms.fss sm.subj seq, msgs := delete ms.msgs seq }
      exact { less with msgs := List.Subset.trans less.msgs List.filter_sublist.subset }
    · exact { ih { ms with dmap := ms.dmap.erase seq } with }

theorem emptied (ms : MemStore) (first last : Nat) : Shrunk ms (ms.emptied first last) :=
  ⟨rfl, rfl, List.nil_subset _⟩

theorem compact (ms : MemStore) (seq : Nat) : Shrunk ms (ms.compact seq).1 := by
  rw [MemStore.compact]
  split
  · exact emptied _ _ _
  split
  · exact refl ms
  split
  · cases Scan.firstIn (stored ms.msgs) seq ms.lastSeq with
    | none =>
      have less := dropSeqs (List.range' ms.firstSeq (ms.lastSeq + 1 - ms.firstSeq)).reverse ms
      exact { less with }
    | some first =>
      have less := dropSeqs (List.range' ms.firstSeq (first - ms.firstSeq)).reverse
        { ms with firstSeq := first }
      exact { less with }
  · exact emptied _ _ _

theorem truncate (ms : MemStore) (seq : Nat) : Shrunk ms (ms.truncate seq) := by
  rw [MemStore.truncate]
  split
  · exact emptied _ _ _
  · have less := dropSeqs (List.range' (seq + 1) (ms.lastSeq - seq)).reverse ms
    exact { less with }

theorem skipMsg (ms : MemStore) (seq : Nat) : Shrunk ms (ms.skipMsg seq).1 := by
  rw [MemStore.skipMsg]
  split
  · exact refl ms
  · dsimp only
    split <;> exact ⟨rfl, rfl, List.Subset.refl _⟩

theorem skipMsgs (ms : MemStore) (seq num : Nat) : Shrunk ms (ms.skipMsgs seq num).1 := by
  rw [MemStore.skipMsgs]
  split
  · exact refl ms
  · dsimp only
    split <;> exact ⟨rfl, rfl, List.Subset.refl _⟩

end Shrunk

theorem Shrunk.trackSubject (ms : MemStore) (subj : Bytes) (seq : Nat) :
    Shrunk ms (ms.trackSubject subj seq) := by
  rw [MemStore.trackSubject]
  split
  · exact refl ms
  cases Table.get ms.fss subj with
  | none => exact ⟨rfl, rfl, List.Subset.refl _⟩
  | some ss =>
    dsimp only
    split
    · refine (kept ms).enforcePerSubjectLimit ?_ _ _
      exact ⟨rfl, rfl, List.Subset.refl _⟩
    · exact ⟨rfl, rfl, List.Subset.refl _⟩

theorem addMsg_msgs {ms left : MemStore} {sm : StoreMsg} (less : Shrunk (ms.addMsg sm) left) :
    ∀ a ∈ left.msgs, a ∈ ms.msgs ∨ a = sm := by
  intro a inside
  rcases List.mem_append.mp (less.msgs inside) with old | new
  · exact .inl (List.filter_sublist.subset old)
  · exact .inr (List.mem_singleton.mp new)

theorem storeRawMsg_msgs {ms : MemStore} {subj hdr msg : Bytes} {seq : Nat} {ts : Int} {check : Bool}
    {r : MemStore × Option StoreErr} (result : ms.storeRawMsg subj hdr msg seq ts check = some r) :
    ∀ sm ∈ r.1.msgs, sm ∈ ms.msgs ∨ sm.subj = subj := by
  rw [MemStore.storeRawMsg] at result
  have checked : Shrunk ms (if check && ms.cfg.discard = .discardNew then
      ms.checkDiscardNew subj hdr msg else (ms, none)).1 := by
    split
    · exact (Shrunk.kept ms).checkDiscardNew (Shrunk.refl ms) subj hdr msg
    · exact Shrunk.refl ms
  generalize (if check && ms.cfg.discard = .discardNew then
    ms.checkDiscardNew subj hdr msg else (ms, none)) = first at checked result
  obtain ⟨next, refused⟩ := first
  dsimp only at checked result
  split at result
  · cases result
    exact fun sm inside => .inl (checked.msgs inside)
  split at result
  · cases result
    exact fun sm inside => .inl (checked.msgs inside)
  split at result
  · cases result
  next limited once =>
  split at result
  · cases result
  next left twice =>
  cases result
  have tracked := (Shrunk.kept _).enforceMsgLimit (Shrunk.trackSubject _ _ _) once
  intro sm inside
  rcases addMsg_msgs ((Shrunk.kept _).enforceBytesLimit tracked twice) sm inside with old | rfl
  · exact .inl (checked.msgs old)
  · exact .inr rfl

theorem apply_msgs {ms next : MemStore} {op : Op} (result : ms.apply op = some next) :
    ∀ sm ∈ next.msgs, sm ∈ ms.msgs ∨ sm.subj ∈ op.stores := by
  cases op with
  | storeMsg subj hdr msg ts =>
    obtain ⟨r, stored_, rfl⟩ := Option.map_eq_some_iff.mp result
    exact fun sm inside => (storeRawMsg_msgs stored_ sm inside).imp_right (congrArg some ·.symm)
  | storeRawMsg subj hdr msg seq ts check =>
    obtain ⟨r, stored_, rfl⟩ := Option.map_eq_some_iff.mp result
    exact fun sm inside => (storeRawMsg_msgs stored_ sm inside).imp_right (congrArg some ·.symm)
  | skipMsg seq => cases result; exact fun sm inside => .inl ((Shrunk.skipMsg ms seq).msgs inside)
  | skipMsgs seq num =>
    cases result
    exact fun sm inside => .inl ((Shrunk.skipMsgs ms seq num).msgs inside)
  | removeMsg seq =>
    cases result
    exact fun sm inside => .inl ((Shrunk.removeMsg ms seq).msgs inside)
  | eraseMsg seq =>
    cases result
    exact fun sm inside => .inl ((Shrunk.removeMsg ms seq).msgs inside)
  | purge => cases result; nofun
  | compact seq => cases result; exact fun sm inside => .inl ((Shrunk.compact ms seq).msgs inside)
  | truncate seq => cases result; exact fun sm inside => .inl ((Shrunk.truncate ms seq).msgs inside)

theorem newMemStore_fresh (cfg : StreamConfig) : (newMemStore cfg).msgs = [] ∧
    (newMemStore cfg).maxp = (newMemStore cfg).cfg.maxMsgsPer := by
  rw [newMemStore]
  split
  next first =>
    have positive : cfg.firstSeq.toNat ≠ 0 := ne_of_gt (UInt64.lt_iff_toNat_lt.mp first)
    simp [purge, emptied, positive]
  · exact ⟨rfl, rfl⟩

/-- A run whose sequences stay below the last block of the deleted set, and whose messages all have
a subject that the tree takes. -/
def Indexable (s : Option MemStore) (op : Op) : Prop :=
  Allowed lastBlock s op ∧ ∀ subj ∈ op.stores, Tracked subj

instance (s : Option MemStore) (op : Op) : Decidable (Indexable s op) :=
  inferInstanceAs (Decidable (_ ∧ ∀ subj ∈ op.stores, Tracked subj))

theorem run_exact (cfg : StreamConfig) (ops : List Op)
    (indexable : Along step Indexable (some (newMemStore cfg)) ops) :
    ∃ ms, run step (some (newMemStore cfg)) ops = some ms ∧ Exact ms := by
  have reached := along_invariant step Indexable
    (fun s => ∃ ms, s = some ms ∧ Consistent ms ∧ ∀ sm ∈ ms.msgs, Tracked sm.subj)
    (fun s op held ok => by
      obtain ⟨ms, rfl, consistent, tracked⟩ := held
      obtain ⟨next, result, after⟩ := consistent.apply (by decide) op ok.1
      refine ⟨next, result, after, fun sm inside => ?_⟩
      rcases apply_msgs result sm inside with old | new
      · exact tracked sm old
      · exact ok.2 _ new)
    ⟨_, rfl, Consistent.new cfg, by rw [(newMemStore_fresh cfg).1]; nofun⟩ ops indexable
  obtain ⟨ms, result, consistent, tracked⟩ := reached
  exact ⟨ms, result, consistent.exact tracked⟩

def unlimited : StreamConfig := ⟨.discardOld, false, 0, 0, 0, 0⟩

def mixedOps : List Op :=
  [.storeMsg (ascii "a") [] [1] 1, .storeMsg (ascii "b") [] [2] 2, .storeMsg (ascii "a") [] [3] 3,
   .storeMsg (ascii "a") [] [4] 4, .storeMsg (ascii "b") [] [5] 5, .removeMsg 1, .eraseMsg 4,
   .skipMsgs 0 2, .storeMsg (ascii "a") [] [8] 6, .truncate 7, .compact 2]

/-- The store after calls on an empty one without limits, and the tree of its subjects. -/
def Reached (ops : List Op) (ms : MemStore) (tree : FssTree) : Prop :=
  run step (some (newMemStore unlimited)) ops = some ms ∧ Stree.treeOf ms.fss = .ok tree

theorem reached (ops : List Op) {P : MemStore → FssTree → Prop}
    (allowed : Along step (Allowed lastWord) (some (newMemStore unlimited)) ops)
    (facts : ∀ ms ∈ run step (some (newMemStore unlimited)) ops,
      ∀ tree ∈ (Stree.treeOf ms.fss).toOption, P ms tree) :
    ∃ ms tree, Reached ops ms tree ∧ Consistent ms ∧ Spans tree ms.fss ∧ P ms tree := by
  obtain ⟨ms, result, consistent⟩ := run_consistent unlimited le_rfl ops allowed
  obtain ⟨tree, built, spans⟩ := consistent.index.tree
  exact ⟨ms, tree, ⟨result, built⟩, consistent, spans,
    facts ms result tree (by rw [built]; rfl)⟩

theorem run_exact_mixed :
    Along step Indexable (some (newMemStore unlimited)) mixedOps ∧
      ∃ ms, run step (some (newMemStore unlimited)) mixedOps = some ms ∧ Exact ms :=
  ⟨by decide +kernel, run_exact unlimited mixedOps (by decide +kernel)⟩

/-- A message without a subject, or with the byte 127 in it, is stored and has no entry. -/
theorem untracked_subjects_have_no_entry :
    (∃ ms, run step (some (newMemStore unlimited)) [.storeMsg [] [] [1] 1] = some ms ∧
      ¬ Exact ms) ∧
    ∃ ms, run step (some (newMemStore unlimited)) [.storeMsg [97, 127] [] [1] 1] = some ms ∧
      ¬ Exact ms := by
  refine ⟨⟨_, rfl, fun exact => ?_⟩, ⟨_, rfl, fun exact => ?_⟩⟩
  · exact absurd ((exact.subjects []).mpr (by decide +kernel)) (by decide +kernel)
  · exact absurd ((exact.subjects [97, 127]).mpr (by decide +kernel)) (by decide +kernel)

end LinearNats.Store
