import LinearNats.Store.Emptied

/-! The limits of a stream hold after every operation of its memory store. At the limit of a
subject a new message is taken in before the subject's oldest one goes, so the limits of the stream
rest on what is known about that one. -/
namespace LinearNats.Store
open Server List MemStore

structure Within (ms : MemStore) : Prop where
  msgs : 0 < ms.cfg.maxMsgs → (ms.stateMsgs : Int) ≤ ms.cfg.maxMsgs
  bytes : 0 < ms.cfg.maxBytes → (ms.stateBytes : Int) ≤ ms.cfg.maxBytes
  perSubject : 0 < ms.cfg.maxMsgsPer → ∀ subj,
    ((ms.msgs.countP (fun sm => sm.subj = subj) : Nat) : Int) ≤ ms.cfg.maxMsgsPer

variable {base ms : MemStore}

theorem Shrunk.subperm (less : Shrunk base ms) (h : Consistent ms) :
    ms.msgs.Subperm base.msgs := h.sorted.nodup_msgs.subperm less.msgs

theorem totalSize_le {msgs base : List StoreMsg} (part : msgs.Subperm base) :
    totalSize msgs ≤ totalSize base := by
  obtain ⟨some_, perm, sublist⟩ := part
  rw [totalSize, ← (perm.map StoreMsg.size).sum_eq]
  exact (sublist.map StoreMsg.size).sum_le_sum (fun _ _ => Nat.zero_le _)

theorem totalSize_append (msgs : List StoreMsg) (sm : StoreMsg) :
    totalSize (msgs ++ [sm]) = totalSize msgs + sm.size := by simp [totalSize]

structure Counted (ms : MemStore) : Prop where
  consistent : Consistent ms
  maxp : ms.maxp = ms.cfg.maxMsgsPer
  perSubject : 0 < ms.cfg.maxMsgsPer → ∀ subj,
    ((ms.msgs.countP (fun sm => sm.subj = subj) : Nat) : Int) ≤ ms.cfg.maxMsgsPer

theorem Counted.shrunk (h : Counted base) (consistent : Consistent ms) (less : Shrunk base ms) :
    Counted ms := by
  refine ⟨consistent, by rw [less.maxp, less.cfg, h.maxp], fun limit subj => ?_⟩
  have most := h.perSubject (less.cfg ▸ limit) subj
  have fewer := (less.subperm consistent).countP_le (fun sm => decide (sm.subj = subj))
  rw [less.cfg]
  omega

structure Limited (ms : MemStore) : Prop extends Counted ms where
  msgs : 0 < ms.cfg.maxMsgs → (ms.stateMsgs : Int) ≤ ms.cfg.maxMsgs
  bytes : 0 < ms.cfg.maxBytes → (ms.stateBytes : Int) ≤ ms.cfg.maxBytes

theorem Limited.within (h : Limited ms) : Within ms :=
  ⟨h.msgs, h.bytes, h.perSubject⟩

theorem Limited.shrunk (h : Limited base) (consistent : Consistent ms) (less : Shrunk base ms) :
    Limited ms := by
  have part := less.subperm consistent
  refine ⟨h.toCounted.shrunk consistent less, fun limit => ?_, fun limit => ?_⟩
  · have most := h.msgs (less.cfg ▸ limit)
    rw [h.consistent.count] at most
    rw [less.cfg, consistent.count]
    have := part.length_le
    omega
  · have most := h.bytes (less.cfg ▸ limit)
    rw [h.consistent.bytes] at most
    rw [less.cfg, consistent.bytes]
    have := totalSize_le part
    omega

/-! A new message. -/

section

variable {ms : MemStore} {sm : StoreMsg}

def AtLimit (ms : MemStore) (subj : Bytes) : Prop :=
  Tracked subj ∧ 0 < ms.maxp ∧ ms.maxp ≤ (seqsOf ms.msgs subj).card

theorem atSubjectLimit_iff (h : Consistent ms) (subj : Bytes) :
    ms.atSubjectLimit subj = true ↔ AtLimit ms subj := by
  rw [atSubjectLimit, AtLimit]
  split
  next absent =>
    refine ⟨fun no => by contradiction, fun ⟨tracked, limit, reached⟩ => ?_⟩
    rw [h.index.absent tracked absent, Finset.card_empty] at reached
    omega
  next ss entry =>
    obtain ⟨tracked, totals⟩ := h.index.entry subj ss entry
    simp [tracked, tracked.1, totals.count]

/-- What is known of a message that passed the checks of a stream that discards new ones. -/
structure Fits (ms : MemStore) (subj : Bytes) (size : Nat) : Prop where
  msgs : 0 < ms.cfg.maxMsgs → (ms.stateMsgs : Int) < ms.cfg.maxMsgs ∨ AtLimit ms subj
  bytes : 0 < ms.cfg.maxBytes → ((ms.stateBytes + size : Nat) : Int) ≤ ms.cfg.maxBytes ∨
    AtLimit ms subj ∧ ∀ old ∈ ms.msgs, IsLeast (seqsOf ms.msgs subj : Set Nat) old.seq →
      size ≤ old.size

variable {subj : Bytes}

theorem checkDiscardNew_fits (h : Consistent ms) {hdr msg : Bytes}
    (passed : (ms.checkDiscardNew subj hdr msg).2 = none) :
    Fits ms subj (memStoreMsgSize subj hdr msg) := by
  rw [checkDiscardNew] at passed
  have limit := atSubjectLimit_iff h subj
  split at passed
  · cases passed
  split at passed
  · cases passed
  rename_i count
  have msgs : 0 < ms.cfg.maxMsgs → (ms.stateMsgs : Int) < ms.cfg.maxMsgs ∨ AtLimit ms subj := by
    rw [← limit]
    intro positive
    simp only [positive, decide_true, Bool.true_and, Bool.and_eq_true, decide_eq_true_eq,
      Bool.not_eq_true', not_and, Bool.not_eq_false] at count
    by_cases reached : ms.cfg.maxMsgs ≤ (ms.stateMsgs : Int)
    · exact .inr (count reached)
    · exact .inl (by omega)
  refine ⟨msgs, fun positive => ?_⟩
  split at passed
  · split at passed
    · cases passed
    next _ asl =>
      refine .inr ⟨limit.mp (by simpa using asl), fun old inside least => ?_⟩
      split at passed
      · cases passed
      rename_i ss entry
      obtain ⟨_, same, fresh⟩ := h.refresh entry
      dsimp only at passed
      rw [same, fresh.first.unique least, h.sorted.load inside] at passed
      dsimp only at passed
      split at passed
      · cases passed
      · omega
  next under =>
    simp only [positive, decide_true, Bool.true_and, decide_eq_true_eq] at under
    exact .inl (by omega)

theorem enforcePerSubjectLimitFrom_le (h : Consistent ms)
    (below : ((seqsOf ms.msgs subj).card : Int) ≤ ms.maxp) (fuel : Nat) :
    enforcePerSubjectLimitFrom subj fuel ms = ms := by
  cases fuel with
  | zero => rfl
  | succ fuel =>
    rw [enforcePerSubjectLimitFrom]
    split
    · rfl
    next ss entry => rw [if_pos (by rw [(h.index.entry subj ss entry).2.count]; exact below)]

theorem enforcePerSubjectLimit_one (h : Consistent ms) {ss : SimpleState}
    (entry : Table.get ms.fss subj = some ss) (positive : 0 < ms.maxp)
    (one : (ss.msgs : Int) = ms.maxp + 1) : ∃ old ∈ ms.msgs, old.subj = subj ∧
      IsLeast (seqsOf ms.msgs subj : Set Nat) old.seq ∧
      (ms.enforcePerSubjectLimit subj ss).msgs = delete ms.msgs old.seq := by
  obtain ⟨consistent, same, fresh⟩ := h.refresh entry
  have less := Shrunk.refresh ms subj ss
  obtain ⟨old, inside, subject, seq⟩ := mem_seqsOf.mp fresh.first.1
  refine ⟨old, inside, subject, seq ▸ fresh.first, ?_⟩
  have removed := Consistent.removeMsg_msgs (ms.refresh subj ss).1 old.seq
  have there : stored (ms.refresh subj ss).1.msgs old.seq = true :=
    stored_iff.mpr ⟨old, same ▸ inside, rfl⟩
  have done := Consistent.removeMsg_stored there
  have next := consistent.removeMsg old.seq
  have maxp := ((Shrunk.removeMsg (ms.refresh subj ss).1 old.seq).maxp).trans less.maxp
  obtain ⟨fuel, rounds⟩ : ∃ fuel, ss.msgs = fuel + 1 := ⟨ss.msgs - 1, by omega⟩
  have count := (h.index.entry subj ss entry).2.count
  rw [enforcePerSubjectLimit, if_neg (by omega), rounds, enforcePerSubjectLimitFrom, entry]
  dsimp only
  rw [if_neg (by omega), ← seq]
  rcases result : (ms.refresh subj ss).1.removeMsg old.seq with ⟨left, ok⟩
  rw [result] at removed done next maxp
  cases done
  dsimp only at removed next maxp ⊢
  have left_ : ((seqsOf left.msgs subj).card : Int) ≤ left.maxp := by
    rw [removed, same, seqsOf_delete, maxp,
      Finset.card_erase_of_mem (mem_seqsOf.mpr ⟨old, inside, subject, rfl⟩)]
    omega
  rw [enforcePerSubjectLimitFrom_le next left_, removed, same]

/-- The messages after a new one is tracked: at the limit of its subject the first one goes. -/
theorem trackSubject_msgs (h : Counted ms) (next : sm.seq = ms.lastSeq + 1)
    (word : sm.seq + 1 < 2 ^ 64) :
    ¬ AtLimit ms sm.subj ∧
        ((ms.addMsg sm).trackSubject sm.subj sm.seq).msgs = ms.msgs ++ [sm] ∨
      AtLimit ms sm.subj ∧ ∃ old ∈ ms.msgs, old.subj = sm.subj ∧
        IsLeast (seqsOf ms.msgs sm.subj : Set Nat) old.seq ∧
        ((ms.addMsg sm).trackSubject sm.subj sm.seq).msgs = delete ms.msgs old.seq ++ [sm] := by
  have above : ∀ a ∈ ms.msgs, a.seq < sm.seq := fun a inside => by
    have := h.consistent.high a inside
    omega
  have added : (ms.addMsg sm).msgs = ms.msgs ++ [sm] := by rw [addMsg, delete_above above]
  rw [trackSubject]
  split
  next empty => exact .inl ⟨fun limit => limit.1.1 empty, added⟩
  rw [← atSubjectLimit_iff h.consistent, atSubjectLimit]
  have fss : (ms.addMsg sm).fss = ms.fss := rfl
  rw [fss]
  cases entry : Table.get ms.fss sm.subj with
  | none => exact .inl ⟨by simp, added⟩
  | some ss =>
    rename_i plain
    have tracked := h.consistent.addTracked next word entry
    have totals := (h.consistent.index.entry _ ss entry).2
    have maxp : (ms.addMsg sm).maxp = ms.maxp := rfl
    simp only [plain, ne_eq, not_false_eq_true, decide_true, Bool.true_and, Bool.and_eq_true,
      decide_eq_true_eq, maxp]
    split
    next full =>
      refine .inr ⟨⟨full.1, by omega⟩, ?_⟩
      have most := h.perSubject (h.maxp ▸ full.1) sm.subj
      rw [← h.consistent.sorted.card_seqsOf, ← totals.count, ← h.maxp] at most
      obtain ⟨old, inside, subject, least, left⟩ := enforcePerSubjectLimit_one tracked
        (by rw [Table.get_set, if_pos rfl]) full.1 (by push_cast at full ⊢; omega)
      rw [added] at inside least left
      have old_ : old ∈ ms.msgs := by
        obtain ⟨m, member⟩ := totals.nonempty
        obtain ⟨a, there, same, rfl⟩ := mem_seqsOf.mp member
        have first := least.2 (mem_seqsOf.mpr ⟨a, mem_append_left _ there, same, rfl⟩)
        rcases mem_append.mp inside with earlier | new
        · exact earlier
        · have := above a there
          rw [mem_singleton.mp new] at first
          omega
      have other := ne_of_gt (above old old_)
      refine ⟨old, old_, subject, ⟨mem_seqsOf.mpr ⟨old, old_, subject, rfl⟩, ?_⟩, ?_⟩
      · intro m member
        obtain ⟨a, there, same, rfl⟩ := mem_seqsOf.mp member
        exact least.2 (mem_seqsOf.mpr ⟨a, mem_append_left _ there, same, rfl⟩)
      · refine left.trans ?_
        simp [delete, filter_append, other]
    next room => exact .inl ⟨fun full => room ⟨full.1, by push_cast; omega⟩, added⟩

theorem fixed_stable (cfg : StreamConfig) (maxp : Int) :
    Stable (fun ms => ms.cfg = cfg ∧ ms.maxp = maxp) where
  totals holds _ := holds
  removeMsg {ms} _ holds seq :=
    ⟨(Shrunk.removeMsg ms seq).cfg.trans holds.1, (Shrunk.removeMsg ms seq).maxp.trans holds.2⟩
  addMsg _ holds _ := holds

theorem Counted.trackSubject (h : Counted ms) (next : sm.seq = ms.lastSeq + 1)
    (word : sm.seq + 1 < 2 ^ 64) (tracked : 0 < ms.cfg.maxMsgsPer → Tracked sm.subj) :
    Counted ((ms.addMsg sm).trackSubject sm.subj sm.seq) := by
  have fixed := (fixed_stable ms.cfg ms.maxp).trackSubject h.consistent ⟨rfl, rfl⟩ next word
  refine ⟨h.consistent.trackSubject next word, by rw [fixed.1, fixed.2, h.maxp], ?_⟩
  intro limit subj
  rw [fixed.1] at limit ⊢
  have most := h.perSubject limit
  rcases trackSubject_msgs h next word with ⟨room, left⟩ | ⟨_, old, inside, subject, _, left⟩
  · rw [left, countP_append]
    by_cases same : sm.subj = subj
    · have free : ((seqsOf ms.msgs sm.subj).card : Int) < ms.maxp := by
        by_contra full
        exact room ⟨tracked limit, h.maxp ▸ limit, by omega⟩
      rw [h.consistent.sorted.card_seqsOf, h.maxp, same] at free
      simp [same]
      omega
    · simpa [same] using most subj
  · have before := (h.consistent.sorted.perm_delete inside).countP_eq (fun sm => decide (sm.subj = subj))
    have := most subj
    rw [left, countP_append]
    by_cases same : sm.subj = subj
    · simp [subject, same] at before ⊢
      omega
    · simp [subject, same] at before ⊢
      omega

section

variable (h : Limited ms) (next : sm.seq = ms.lastSeq + 1) (word : sm.seq + 1 < 2 ^ 64)
  (tracked : 0 < ms.cfg.maxMsgsPer → Tracked sm.subj)

include h next word tracked

/-- A stream that discards new messages evicts only for a subject at its limit. -/
theorem Limited.fits (fits : Fits ms sm.subj sm.size) :
    Limited ((ms.addMsg sm).trackSubject sm.subj sm.seq) ∧
      sm ∈ ((ms.addMsg sm).trackSubject sm.subj sm.seq).msgs := by
  have counted := h.toCounted.trackSubject next word tracked
  have cfg := ((fixed_stable ms.cfg ms.maxp).trackSubject h.consistent ⟨rfl, rfl⟩ next word).1
  have count := h.consistent.count
  have size := h.consistent.bytes
  refine ⟨⟨counted, fun limit => ?_, fun limit => ?_⟩, ?_⟩ <;>
    rcases trackSubject_msgs h.toCounted next word with
      ⟨room, left⟩ | ⟨_, old, inside, _, least, left⟩
  · rw [cfg] at limit ⊢
    have := (fits.msgs limit).resolve_right room
    rw [counted.consistent.count, left, length_append, length_singleton]
    omega
  · rw [cfg] at limit ⊢
    have := h.msgs limit
    have := (h.consistent.sorted.perm_delete inside).length_eq
    rw [counted.consistent.count, left, length_append, length_singleton]
    simp only [length_cons] at this
    omega
  · rw [cfg] at limit ⊢
    have := (fits.bytes limit).resolve_right (fun full => room full.1)
    rw [counted.consistent.bytes, left, totalSize_append]
    omega
  · rw [cfg] at limit ⊢
    have := h.bytes limit
    have evicted : totalSize ms.msgs = old.size + totalSize (delete ms.msgs old.seq) :=
      ((h.consistent.sorted.perm_delete inside).map StoreMsg.size).sum_eq
    have := (fits.bytes limit).imp_right (fun full => full.2 old inside least)
    rw [counted.consistent.bytes, left, totalSize_append]
    omega
  · simp [left]
  · simp [left]

/-- A new message: the loops over the limits end with all of them kept, and do not panic. -/
theorem Limited.enforce (fits : ms.cfg.discard = .discardNew → Fits ms sm.subj sm.size) :
    ∃ limited left,
    ((ms.addMsg sm).trackSubject sm.subj sm.seq).enforceMsgLimit = some limited ∧
      limited.enforceBytesLimit = some left ∧ Limited left ∧
      (ms.cfg.discard = .discardNew → sm ∈ left.msgs) := by
  have cfg := ((fixed_stable ms.cfg ms.maxp).trackSubject h.consistent ⟨rfl, rfl⟩ next word).1
  have counted := h.toCounted.trackSubject next word tracked
  have new := h.fits next word tracked
  generalize (ms.addMsg sm).trackSubject sm.subj sm.seq = t at cfg counted new
  cases policy : ms.cfg.discard with
  | discardNew =>
    obtain ⟨limited, kept⟩ := new (fits policy)
    have off : t.cfg.discard ≠ .discardOld := by simp [cfg, policy]
    exact ⟨t, t, by rw [enforceMsgLimit, if_pos (.inl off)],
      by rw [enforceBytesLimit, if_pos (.inl off)], limited, fun _ => kept⟩
  | discardOld =>
    have old : t.cfg.discard = .discardOld := by rw [cfg, policy]
    obtain ⟨limited, first, msgs⟩ := counted.consistent.enforceMsgLimit
    have consistent := Consistent.kept.enforceMsgLimit counted.consistent first
    have less := (Shrunk.kept t).enforceMsgLimit (Shrunk.refl t) first
    obtain ⟨left, second, bytes⟩ := consistent.enforceBytesLimit
    have consistent' := Consistent.kept.enforceBytesLimit consistent second
    have less' := (Shrunk.kept limited).enforceBytesLimit (Shrunk.refl limited) second
    refine ⟨limited, left, first, second,
      ⟨(counted.shrunk consistent less).shrunk consistent' less', fun limit => ?_, fun limit => ?_⟩,
      by simp⟩
    · rw [less'.cfg] at limit ⊢
      have := msgs old (less.cfg ▸ limit)
      have := (less'.subperm consistent').length_le
      rw [consistent'.count]
      rw [consistent.count] at *
      omega
    · rw [less'.cfg] at limit
      have := bytes (by rw [less.cfg, old]) limit
      omega

end

theorem Limited.storeRawMsg (h : Limited ms) (word : ms.lastSeq + 2 < 2 ^ 64)
    (subj hdr msg : Bytes) (seq : Nat) (ts : Int) {check : Bool} (checked : ms.cfg.discard = .discardNew → check = true)
    (tracked : 0 < ms.cfg.maxMsgsPer → Tracked subj) :
    ∃ r, ms.storeRawMsg subj hdr msg seq ts check = some r ∧ Limited r.1 ∧
      (ms.cfg.discard = .discardNew → r.2 = none →
        ⟨subj, hdr, msg, ms.lastSeq + 1, ts⟩ ∈ r.1.msgs) := by
  obtain ⟨fss, refused, outcome, consistent, cases_⟩ :=
    h.consistent.storeRawMsg_cases word subj hdr msg seq ts check
  have limited : Limited { ms with fss := fss } :=
    ⟨⟨consistent, h.maxp, h.perSubject⟩, h.msgs, h.bytes⟩
  rcases cases_ with ⟨err, result⟩ | ⟨passed, a, b, first, second, result⟩
  · exact ⟨_, result, limited, nofun⟩
  have fits (policy : ms.cfg.discard = .discardNew) :
      Fits ms subj (memStoreMsgSize subj hdr msg) := by
    simp only [checked policy, policy, decide_true, Bool.and_self, if_true] at outcome
    exact checkDiscardNew_fits h.consistent (by rw [outcome, passed])
  obtain ⟨a', b', first', second', done, kept⟩ := @Limited.enforce { ms with fss := fss }
    ⟨subj, hdr, msg, ms.lastSeq + 1, ts⟩ limited rfl word tracked
    (fun policy => ⟨(fits policy).msgs, (fits policy).bytes⟩)
  cases first.symm.trans first'
  cases second.symm.trans second'
  exact ⟨_, result, done, fun policy _ => kept policy⟩

end

/-- A raw store without the check of a stream that discards new messages. -/
def Op.unchecked : Op → Bool
  | .storeRawMsg _ _ _ _ _ check => !check
  | _ => false

/-- What a run has to keep to: a sequence is left after the last one, the check of a stream that
discards new messages is always on, and with a limit per subject every message has a subject that
the tree takes. -/
def Guarded (s : Option MemStore) (op : Op) : Prop :=
  Allowed lastWord s op ∧ ∀ ms ∈ s, (ms.cfg.discard = .discardNew → op.unchecked = false) ∧
    ∀ subj ∈ op.stores, 0 < ms.cfg.maxMsgsPer → Tracked subj

instance (s : Option MemStore) (op : Op) : Decidable (Guarded s op) :=
  inferInstanceAs (Decidable (_ ∧ ∀ ms ∈ s, _ ∧ ∀ subj ∈ op.stores, _))

theorem Limited.new (cfg : StreamConfig) : Limited (newMemStore cfg) := by
  have consistent := Consistent.new cfg
  obtain ⟨empty, maxp⟩ := newMemStore_fresh cfg
  refine ⟨⟨consistent, maxp, fun limit subj => ?_⟩, fun limit => ?_, fun limit => ?_⟩
  · simp only [empty, countP_nil]
    omega
  · simp only [consistent.count, empty, length_nil]
    omega
  · simp only [consistent.bytes, empty, totalSize, map_nil, sum_nil]
    omega

theorem Limited.apply (h : Limited ms) (op : Op) (ok : Guarded (some ms) op) :
    ∃ next, ms.apply op = some next ∧ Limited next := by
  obtain ⟨left, result, consistent⟩ := h.consistent.apply le_rfl op ok.1
  have below := (ok.1 ms rfl).1
  obtain ⟨checked, tracked⟩ := ok.2 ms rfl
  rw [lastWord] at below
  cases op with
  | storeMsg subj hdr msg ts =>
    obtain ⟨r, result, limited, _⟩ := h.storeRawMsg (by rw [Op.lastUsed] at below; omega) subj hdr
      msg (u64 (ms.lastSeq + 1)) ts (fun _ => rfl) (tracked subj rfl)
    exact ⟨r.1, by rw [MemStore.apply, MemStore.storeMsg, result, Option.map_some], limited⟩
  | storeRawMsg subj hdr msg seq ts check =>
    obtain ⟨r, result, limited, _⟩ := h.storeRawMsg (by rw [Op.lastUsed] at below; omega) subj hdr
      msg seq ts (fun policy => by simpa [Op.unchecked] using checked policy) (tracked subj rfl)
    exact ⟨r.1, by rw [MemStore.apply, result, Option.map_some], limited⟩
  | skipMsg seq => cases result; exact ⟨_, rfl, h.shrunk consistent (Shrunk.skipMsg ms seq)⟩
  | skipMsgs seq num =>
    cases result
    exact ⟨_, rfl, h.shrunk consistent (Shrunk.skipMsgs ms seq num)⟩
  | removeMsg seq => cases result; exact ⟨_, rfl, h.shrunk consistent (Shrunk.removeMsg ms seq)⟩
  | eraseMsg seq => cases result; exact ⟨_, rfl, h.shrunk consistent (Shrunk.removeMsg ms seq)⟩
  | purge => cases result; exact ⟨_, rfl, h.shrunk consistent (Shrunk.emptied ms _ _)⟩
  | compact seq => cases result; exact ⟨_, rfl, h.shrunk consistent (Shrunk.compact ms seq)⟩
  | truncate seq => cases result; exact ⟨_, rfl, h.shrunk consistent (Shrunk.truncate ms seq)⟩

theorem run_within_limits (cfg : StreamConfig) (ops : List Op)
    (guarded : Along step Guarded (some (newMemStore cfg)) ops) :
    ∃ ms, run step (some (newMemStore cfg)) ops = some ms ∧ Within ms ∧
      ∀ subj hdr msg ts, Guarded (some ms) (.storeMsg subj hdr msg ts) →
        ∃ r, ms.storeMsg subj hdr msg ts = some r ∧ Within r.1 ∧
          (ms.cfg.discard = .discardNew → r.2 = none →
            ⟨subj, hdr, msg, ms.lastSeq + 1, ts⟩ ∈ r.1.msgs) := by
  have reached := along_invariant step Guarded (fun s => ∃ ms, s = some ms ∧ Limited ms)
    (fun s op held ok => by
      obtain ⟨ms, rfl, limited⟩ := held
      exact limited.apply op ok) ⟨_, rfl, Limited.new cfg⟩ ops guarded
  obtain ⟨ms, result, limited⟩ := reached
  refine ⟨ms, result, limited.within, fun subj hdr msg ts ok => ?_⟩
  have word : ms.lastSeq + 1 < lastWord := (ok.1 ms rfl).1
  obtain ⟨r, stored, after, kept⟩ := limited.storeRawMsg (by rw [lastWord] at word; omega) subj hdr
    msg (u64 (ms.lastSeq + 1)) ts (fun _ => rfl) ((ok.2 ms rfl).2 subj rfl)
  exact ⟨r, stored, after.within, kept⟩

/-- One message of a subject replaces another of the same size in a full stream. -/
theorem run_within_limits_replaced :
    let full : StreamConfig := ⟨.discardNew, false, 2, 40, 1, 0⟩
    let ops : List Op := [.storeMsg (ascii "a") [] [1, 2, 3] 1, .storeMsg (ascii "b") [] [4, 5, 6] 2,
      .storeMsg (ascii "a") [] [7, 8, 9] 3]
    ∃ ms, run step (some (newMemStore full)) ops = some ms ∧ Within ms := by
  intro full ops
  have guarded : Along step Guarded (some (newMemStore full)) ops := by decide +kernel
  obtain ⟨ms, result, within, _⟩ := run_within_limits full ops guarded
  exact ⟨ms, result, within⟩

/-- Two messages of a subject with the byte 127, of which one is allowed. -/
theorem untracked_subject_exceeds :
    let one : StreamConfig := ⟨.discardOld, false, 0, 0, 1, 0⟩
    let ops : List Op := [.storeMsg [97, 127] [] [1] 1, .storeMsg [97, 127] [] [2] 2]
    ∃ ms, run step (some (newMemStore one)) ops = some ms ∧ ¬ Within ms := by
  refine ⟨_, rfl, fun within => ?_⟩
  exact absurd (within.perSubject (by decide) [97, 127]) (by decide +kernel)

end LinearNats.Store
