import LinearNats.Store.Runs
import LinearNats.Server.Subject
import LinearNats.Stree.Match

/-! Discard-new admission of the messages of a batch. Every message is staged on the diff and then
checked against the limits; a batch whose messages all pass is stored. A Go map is a table, and
each loop over one takes its own order. -/
namespace LinearNats.Batch
open Server Store List Option MemStore Table

structure RunningTotal where
  bytes : Nat
  ops : Nat
  deriving DecidableEq

abbrev Inflight := List (Bytes × RunningTotal)

structure Order where
  visit : Inflight → Inflight
  perm : ∀ t, (visit t).Perm t

/-- A message of a batch: a subject without empty tokens, and no rollup header. -/
structure Msg where
  subj : Bytes
  hdr : Bytes
  msg : Bytes
  ts : Int
  filled : ∀ t ∈ tokenizeSubject subj, t ≠ []
  noRollup : (sliceHeader jsMsgRollup hdr).getD [] = []

structure Pass extends Msg where
  overInflight : Order
  overDiff : Order

/-- A stream that discards new messages, also for each subject, as its check sees it: the state and
the totals its store reports, and the messages already proposed. `stored` is the number of messages
of a subject, whatever the store reports. -/
structure Stream where
  cfg : StreamConfig
  stateMsgs : Nat
  stateBytes : Nat
  subjectsTotals : Bytes → List (Bytes × Nat)
  msgSizeRaw : Nat → Nat → Nat → Nat
  inflight : Inflight
  stored : Bytes → Nat
  discardNew : cfg.discard = .discardNew
  discardNewPer : cfg.discardNewPer = true
  limited : 0 < cfg.maxMsgsPer

namespace Stream

variable (st : Stream)

def size (m : Msg) : Nat := st.msgSizeRaw m.subj.length m.hdr.length m.msg.length

def track (diff : Inflight) (m : Msg) : Inflight :=
  match Table.get diff m.subj with
  | some i => Table.set diff m.subj ⟨i.bytes + st.size m, i.ops + 1⟩
  | none => Table.set diff m.subj ⟨st.size m, 1⟩

def checkTotals (visited : Inflight) : Option StoreErr :=
  let totalMsgs := st.stateMsgs + (visited.map (fun e => e.2.ops)).sum
  let totalBytes := st.stateBytes + (visited.map (fun e => e.2.bytes)).sum
  if 0 < st.cfg.maxMsgs ∧ st.cfg.maxMsgs < totalMsgs then some .errMaxMsgs
  else if 0 < st.cfg.maxBytes ∧ st.cfg.maxBytes < totalBytes then some .errMaxBytes
  else none

/-- The messages of a subject that the store reports; it does so for the subjects its tree finds. -/
def reported (subj : Bytes) : Nat := (Table.get (st.subjectsTotals subj) subj).getD 0

/-- The limit of a subject; `i` is the running total that is added for the batch. -/
def checkSubject (m : Msg) (i : RunningTotal) : Option StoreErr :=
  if st.cfg.discardNewPer ∧ 0 < st.cfg.maxMsgsPer ∧
      (sliceHeader jsMsgRollup m.hdr).getD [] = [] then
    let totalMsgsForSubject := st.reported m.subj + i.ops +
      ((Table.get st.inflight m.subj).map RunningTotal.ops).getD 0
    if st.cfg.maxMsgsPer < totalMsgsForSubject then some .errMaxMsgsPerSubject else none
  else none

/-- The end of `checkMsgHeadersPreClusteredProposal`: the message is staged, also when it is then
refused. Both loops assign to the variable `i` that holds the running total of the subject. -/
def checkMsg (diff : Inflight) (p : Pass) : Inflight × Option StoreErr :=
  let diff := st.track diff p.toMsg
  let own := (Table.get diff p.subj).getD ⟨0, 0⟩
  if st.cfg.discard ≠ .discardNew then (diff, none)
  else if 0 < st.cfg.maxMsgs ∨ 0 < st.cfg.maxBytes then
    let visited := p.overInflight.visit st.inflight ++ p.overDiff.visit diff
    let i := (visited.getLast?.map Prod.snd).getD own
    match st.checkTotals visited with
    | some err => (diff, some err)
    | none => (diff, st.checkSubject p.toMsg i)
  else (diff, st.checkSubject p.toMsg own)

def stage (diff : Inflight) : List Pass → List (Option StoreErr)
  | [] => []
  | p :: ps =>
    let out := st.checkMsg diff p
    out.2 :: stage out.1 ps

def staged (ms : List Msg) : Inflight := ms.foldl st.track []

end Stream

def countOf (ms : List Msg) (subj : Bytes) : Nat := ms.countP (fun m => m.subj = subj)

namespace Stream

variable (st : Stream)

theorem staged_append (ms : List Msg) (m : Msg) :
    st.staged (ms ++ [m]) = st.track (st.staged ms) m := by
  simp [staged]

theorem get_track (diff : Inflight) (m : Msg) (subj : Bytes) :
    Table.get (st.track diff m) subj =
      if m.subj = subj then
        some ⟨((Table.get diff m.subj).map RunningTotal.bytes).getD 0 + st.size m,
          ((Table.get diff m.subj).map RunningTotal.ops).getD 0 + 1⟩
      else Table.get diff subj := by
  rw [track]
  cases found : Table.get diff m.subj with
  | none => simp [get_set]
  | some i => simp [get_set]

theorem staged_ops (ms : List Msg) (subj : Bytes) :
    ((Table.get (st.staged ms) subj).map RunningTotal.ops).getD 0 = countOf ms subj := by
  induction ms using List.reverseRecOn with
  | nil => rfl
  | append_singleton ms m ih =>
    rw [staged_append, get_track, countOf, countP_append, countP_singleton]
    by_cases same : m.subj = subj
    · subst same
      simp [ih, countOf]
    · simpa [same, countOf] using ih

theorem staged_keys (ms : List Msg) : ((st.staged ms).map Prod.fst).Nodup := by
  induction ms using List.reverseRecOn with
  | nil => exact nodup_nil
  | append_singleton ms m ih =>
    rw [staged_append, track]
    split <;> exact keys_set ih _ _

theorem sum_erase {t : Inflight} (keys : (t.map Prod.fst).Nodup) (f : RunningTotal → Nat)
    (subj : Bytes) :
    (t.map (fun e => f e.2)).sum =
      ((Table.get t subj).map f).getD 0 + ((Table.erase t subj).map (fun e => f e.2)).sum := by
  induction t with
  | nil => rfl
  | cons e t ih =>
    rw [map_cons, nodup_cons] at keys
    by_cases head : e.1 = subj
    · have absent : Table.get t subj = none := by
        rw [get_eq_none_iff, ← head]
        exact keys.1
      have dropped : Table.erase (e :: t) subj = t := by
        rw [← erase_of_none absent]
        simp [Table.erase, head]
      rw [dropped, Table.get, if_pos head]
      simp
    · have kept : Table.erase (e :: t) subj = e :: Table.erase t subj := by
        simp [Table.erase, head]
      rw [kept, Table.get, if_neg head, map_cons, map_cons, sum_cons, sum_cons, ih keys.2]
      omega

theorem sum_track {diff : Inflight} (keys : (diff.map Prod.fst).Nodup) {f : RunningTotal → Nat}
    {m : Msg} {n : Nat} (new : f ⟨st.size m, 1⟩ = n)
    (more : ∀ i, f ⟨i.bytes + st.size m, i.ops + 1⟩ = f i + n) :
    ((st.track diff m).map (fun e => f e.2)).sum = (diff.map (fun e => f e.2)).sum + n := by
  rw [sum_erase keys f m.subj, track]
  cases found : Table.get diff m.subj with
  | none =>
    simp only [Table.set, map_cons, sum_cons, new, map_none, getD_none]
    omega
  | some i =>
    simp only [Table.set, map_cons, sum_cons, more, map_some, getD_some]
    omega

theorem staged_sum_ops (ms : List Msg) : ((st.staged ms).map (fun e => e.2.ops)).sum = ms.length := by
  induction ms using List.reverseRecOn with
  | nil => rfl
  | append_singleton ms m ih =>
    rw [staged_append, st.sum_track (st.staged_keys ms) (f := RunningTotal.ops) rfl (fun _ => rfl), ih]
    simp

theorem staged_sum_bytes (ms : List Msg) :
    ((st.staged ms).map (fun e => e.2.bytes)).sum = (ms.map st.size).sum := by
  induction ms using List.reverseRecOn with
  | nil => rfl
  | append_singleton ms m ih =>
    rw [staged_append, st.sum_track (st.staged_keys ms) (f := RunningTotal.bytes) rfl (fun _ => rfl),
      ih]
    simp

/-! What the checks decide, in terms of the messages. -/

def TotalsOver (ms : List Msg) : Prop :=
  (0 < st.cfg.maxMsgs ∧ st.cfg.maxMsgs <
      (st.stateMsgs + (st.inflight.map (fun e => e.2.ops)).sum + ms.length : Nat)) ∨
    (0 < st.cfg.maxBytes ∧ st.cfg.maxBytes <
      (st.stateBytes + (st.inflight.map (fun e => e.2.bytes)).sum + (ms.map st.size).sum : Nat))

def Over (subj : Bytes) (stored staged : Nat) : Prop :=
  st.cfg.maxMsgsPer <
    (stored + ((Table.get st.inflight subj).map RunningTotal.ops).getD 0 + staged : Nat)

/-- The stored, proposed and staged messages of a subject are more than it may have. -/
def SubjectOver (ms : List Msg) (subj : Bytes) : Prop :=
  st.Over subj (st.stored subj) (countOf ms subj)

instance (ms : List Msg) : Decidable (st.TotalsOver ms) := inferInstanceAs (Decidable (_ ∨ _))

instance (subj : Bytes) (stored staged : Nat) : Decidable (st.Over subj stored staged) :=
  inferInstanceAs (Decidable (_ < _))

instance (ms : List Msg) (subj : Bytes) : Decidable (st.SubjectOver ms subj) :=
  inferInstanceAs (Decidable (st.Over _ _ _))

theorem checkTotals_eq_none (p : Pass) (ms : List Msg) :
    st.checkTotals (p.overInflight.visit st.inflight ++ p.overDiff.visit (st.staged ms)) = none ↔
      ¬ st.TotalsOver ms := by
  have ops := ((p.overInflight.perm st.inflight).map (fun e => e.2.ops)).sum_eq
  have bytes := ((p.overInflight.perm st.inflight).map (fun e => e.2.bytes)).sum_eq
  have ops' := ((p.overDiff.perm (st.staged ms)).map (fun e => e.2.ops)).sum_eq
  have bytes' := ((p.overDiff.perm (st.staged ms)).map (fun e => e.2.bytes)).sum_eq
  rw [staged_sum_ops] at ops'
  rw [staged_sum_bytes] at bytes'
  simp only [checkTotals, map_append, sum_append, ops, bytes, ops', bytes', TotalsOver,
    ← add_assoc]
  split
  next passed => exact iff_of_false (by simp) (fun under => under (.inl passed))
  rename_i under
  split
  next passed => exact iff_of_false (by simp) (fun under => under (.inr passed))
  next fits => exact iff_of_true rfl (fun passed => passed.elim under fits)

theorem checkTotals_ne_subject (visited : Inflight) :
    st.checkTotals visited ≠ some .errMaxMsgsPerSubject := by
  simp only [checkTotals]
  split
  · simp
  · split <;> simp

theorem checkSubject_eq (m : Msg) (i : RunningTotal) :
    st.checkSubject m i =
      if st.Over m.subj (st.reported m.subj) i.ops then some .errMaxMsgsPerSubject else none := by
  rw [checkSubject, if_pos ⟨st.discardNewPer, st.limited, m.noRollup⟩]
  simp only [Over]
  congr 1
  rw [add_right_comm]

/-! One message, and all of a sequence. -/

/-- The subject of the entry at which the loop over the diff ends. -/
def lastSubject (p : Pass) (diff : Inflight) : Bytes :=
  ((p.overDiff.visit diff).getLast?.map Prod.fst).getD []

theorem track_ne_nil (diff : Inflight) (m : Msg) : st.track diff m ≠ [] := by
  rw [track]
  split <;> simp [Table.set]

/-- The variable `i` after both loops. -/
theorem visited_last (before : List Msg) (p : Pass) (own : RunningTotal) :
    ((((p.overInflight.visit st.inflight ++ p.overDiff.visit (st.staged (before ++ [p.toMsg]))).getLast?).map
      Prod.snd).getD own).ops =
      countOf (before ++ [p.toMsg]) (lastSubject p (st.staged (before ++ [p.toMsg]))) := by
  set diff := st.staged (before ++ [p.toMsg]) with diff_eq
  have perm := p.overDiff.perm diff
  have filled : p.overDiff.visit diff ≠ [] := by
    intro empty
    rw [empty] at perm
    have none : diff = [] := perm.nil_eq.symm
    rw [diff_eq, staged_append] at none
    exact st.track_ne_nil _ _ none
  obtain ⟨front, last, split⟩ := (p.overDiff.visit diff).eq_nil_or_concat.resolve_left filled
  rw [concat_eq_append] at split
  have inside : last ∈ diff := perm.subset (by simp [split])
  have found : Table.get diff last.1 = some last.2 :=
    get_of_mem (st.staged_keys _) inside
  have ops := st.staged_ops (before ++ [p.toMsg]) last.1
  rw [← diff_eq, found] at ops
  rw [lastSubject, split, ← append_assoc, getLast?_concat, getLast?_concat]
  exact ops

theorem own_ops (before : List Msg) (m : Msg) (zero : RunningTotal) :
    ((Table.get (st.staged (before ++ [m])) m.subj).getD zero).ops =
      countOf (before ++ [m]) m.subj := by
  have ops := st.staged_ops (before ++ [m]) m.subj
  rw [staged_append, get_track, if_pos rfl] at ops ⊢
  exact ops

/-- The staged messages that the check adds: those of the subject at which the loop over the diff
ends if the totals are checked, and those of the own subject if not. -/
def addedOps (before : List Msg) (p : Pass) : Nat :=
  countOf (before ++ [p.toMsg]) (if 0 < st.cfg.maxMsgs ∨ 0 < st.cfg.maxBytes then
    lastSubject p (st.staged (before ++ [p.toMsg])) else p.subj)

theorem checkMsg_staged (before : List Msg) (p : Pass) :
    st.checkMsg (st.staged before) p = (st.staged (before ++ [p.toMsg]),
      if st.TotalsOver (before ++ [p.toMsg]) then
        st.checkTotals (p.overInflight.visit st.inflight ++
          p.overDiff.visit (st.staged (before ++ [p.toMsg])))
      else if st.Over p.subj (st.reported p.subj) (st.addedOps before p) then
        some .errMaxMsgsPerSubject
      else none) := by
  rw [checkMsg, ← staged_append]
  simp only [st.discardNew, ne_eq, not_true_eq_false, if_false, addedOps]
  split
  · have none := st.checkTotals_eq_none p (before ++ [p.toMsg])
    split
    next err refused =>
      rw [refused] at none
      rw [if_pos (by simpa using none)]
      rw [refused]
    next passes => rw [if_neg (none.mp passes), checkSubject_eq, visited_last]
  next unset =>
    have under : ¬ st.TotalsOver (before ++ [p.toMsg]) :=
      fun more => unset (more.imp And.left And.left)
    rw [if_neg under, checkSubject_eq, own_ops]

/-- A message is refused for its subject exactly when its subject is over the limit. -/
def Exact (before : List Msg) (p : Pass) : Prop :=
  (st.checkMsg (st.staged before) p).2 = some .errMaxMsgsPerSubject ↔
    st.SubjectOver (before ++ [p.toMsg]) p.subj

/-- The limits of the stream pass over no refusal for the subject, and what the check adds up stands
on the same side of the limit as the messages of the subject. -/
def Clear (before : List Msg) (p : Pass) : Prop :=
  if st.TotalsOver (before ++ [p.toMsg]) then ¬ st.SubjectOver (before ++ [p.toMsg]) p.subj
  else (st.Over p.subj (st.reported p.subj) (st.addedOps before p) ↔
    st.SubjectOver (before ++ [p.toMsg]) p.subj)

theorem exact_iff_clear (before : List Msg) (p : Pass) : st.Exact before p ↔ st.Clear before p := by
  rw [Exact, Clear, checkMsg_staged]
  dsimp only
  split
  · simp [st.checkTotals_ne_subject]
  · split <;> simp_all

theorem stage_append (before : List Msg) (front : List Pass) (p : Pass) (after : List Pass) :
    (st.stage (st.staged before) (front ++ p :: after))[front.length]? =
      some (st.checkMsg (st.staged (before ++ front.map Pass.toMsg)) p).2 := by
  induction front generalizing before with
  | nil => simp [stage]
  | cons q front ih =>
    rw [cons_append, stage, checkMsg_staged]
    simp only [length_cons, getElem?_cons_succ]
    rw [ih, map_cons, append_assoc, singleton_append]

end Stream

/-! The store. -/

/-- `SubjectsTotals` of the memory store. -/
def memStoreSubjectsTotals (tree : FssTree) (filterSubject : Bytes) :
    List (Bytes × Nat) :=
  ((tree.matched filterSubject).filter (fun e => filterSubject = [] || filterSubject = fwcs ||
    isSubsetMatchTokenized (tokenizeSubject e.1) (tokenizeSubject filterSubject))).map
    (fun e => (e.1, e.2.msgs))

def memStoreMsgSizeRaw (slen hlen mlen : Nat) : Nat := slen + hlen + mlen + 16

structure Backs (st : Stream) (ms : MemStore) (tree : FssTree) : Prop where
  consistent : Consistent ms
  represents : tree.Represents ms.fss
  cfg : ms.cfg = st.cfg
  maxp : ms.maxp = st.cfg.maxMsgsPer
  msgs : st.stateMsgs = ms.stateMsgs
  bytes : st.stateBytes = ms.stateBytes
  totals : st.subjectsTotals = memStoreSubjectsTotals tree
  stored : ∀ subj, st.stored subj = (seqsOf ms.msgs subj).card
  raw : st.msgSizeRaw = memStoreMsgSizeRaw

def storeAll (ms : MemStore) : List Msg → Option (MemStore × List (Option StoreErr))
  | [] => some (ms, [])
  | m :: rest =>
    match ms.storeMsg m.subj m.hdr m.msg m.ts with
    | none => none
    | some (ms, err) => (storeAll ms rest).map (fun out => (out.1, err :: out.2))

theorem Msg.subj_ne_nil (m : Msg) : m.subj ≠ [] := by
  intro empty
  have filled := m.filled
  rw [empty] at filled
  exact filled [] (by simp [tokenizeSubject]) rfl

def indexed (ms : MemStore) (subj : Bytes) : Nat :=
  ((Table.get ms.fss subj).map SimpleState.msgs).getD 0

theorem Backs.indexed_le {st : Stream} {ms : MemStore} {tree : FssTree}
    (backs : Backs st ms tree) (subj : Bytes) : indexed ms subj ≤ st.stored subj := by
  rw [indexed, backs.stored]
  cases entry : Table.get ms.fss subj with
  | none => exact Nat.zero_le _
  | some ss => exact le_of_eq (backs.consistent.index.entry subj ss entry).2.count

theorem trackSubject_fits {ms : MemStore} {subj : Bytes} (filled : subj ≠ []) (seq : Nat)
    (under : (indexed ms subj : Int) < ms.maxp) :
    ∃ fss, ms.trackSubject subj seq = { ms with fss := fss } ∧ ∀ other,
      indexed { ms with fss := fss } other ≤
        indexed ms other + if subj = other then 1 else 0 := by
  rw [trackSubject, if_neg filled]
  rw [indexed] at under
  cases entry : Table.get ms.fss subj with
  | none =>
    refine ⟨_, rfl, fun other => ?_⟩
    simp only [SubjectTree.insert, indexed]
    split
    · exact Nat.le_add_right _ _
    · rw [get_set]
      split
      · simp
      · exact Nat.le_add_right _ _
  | some ss =>
    rw [entry, map_some, getD_some] at under
    refine ⟨_, if_neg (fun more => ?_), fun other => ?_⟩
    · have more := more.2
      push_cast at more
      omega
    · simp only [indexed]
      rw [get_set]
      split
      next same => simp [← same, entry]
      · exact Nat.le_add_right _ _

/-- What a store has taken in: the messages that were there, and those before. -/
structure Holding (ms : MemStore) (before : List Msg) (now : MemStore) : Prop where
  cfg : now.cfg = ms.cfg
  maxp : now.maxp = ms.maxp
  msgs : now.stateMsgs = ms.stateMsgs + before.length
  bytes : now.stateBytes =
    ms.stateBytes + (before.map (fun m => memStoreMsgSize m.subj m.hdr m.msg)).sum
  subjects : ∀ subj, indexed now subj ≤ indexed ms subj + countOf before subj

theorem Holding.start (ms : MemStore) : Holding ms [] ms :=
  ⟨rfl, rfl, rfl, rfl, fun _ => le_refl _⟩

theorem Holding.store {ms now : MemStore} {before : List Msg} (holding : Holding ms before now)
    (m : Msg) (discardNew : now.cfg.discard = .discardNew)
    (subject : (indexed now m.subj : Int) < now.maxp)
    (total : 0 < now.cfg.maxMsgs → (now.stateMsgs : Int) < now.cfg.maxMsgs)
    (bytes : 0 < now.cfg.maxBytes →
      ((now.stateBytes + memStoreMsgSize m.subj m.hdr m.msg : Nat) : Int) ≤ now.cfg.maxBytes) :
    ∃ next, now.storeMsg m.subj m.hdr m.msg m.ts = some (next, none) ∧
      Holding ms (before ++ [m]) next := by
  have room : now.atSubjectLimit m.subj = false := by
    rw [atSubjectLimit]
    rw [indexed] at subject
    cases entry : Table.get now.fss m.subj with
    | none => rfl
    | some ss =>
      rw [entry, map_some, getD_some] at subject
      simp only [Bool.and_eq_false_iff, decide_eq_false_iff_not]
      right
      omega
  have passes : now.checkDiscardNew m.subj m.hdr m.msg = (now, none) := by
    simp only [checkDiscardNew, room, Bool.false_and, Bool.not_false, Bool.and_true]
    rw [if_neg (by simp), if_neg, if_neg]
    · simp only [Bool.and_eq_true, decide_eq_true_eq, not_and, Int.not_lt]
      exact bytes
    · simp only [Bool.and_eq_true, decide_eq_true_eq, not_and, Int.not_le]
      exact total
  set sm : StoreMsg := ⟨m.subj, m.hdr, m.msg, u64 (now.lastSeq + 1), m.ts⟩ with sm_eq
  obtain ⟨fss, tracked, counts⟩ :=
    @trackSubject_fits (now.addMsg sm) _ m.subj_ne_nil sm.seq subject
  refine ⟨{ now.addMsg sm with fss := fss }, ?_, holding.cfg, holding.maxp, ?_, ?_, ?_⟩
  · simp only [storeMsg, storeRawMsg, discardNew, decide_true, Bool.and_true, if_true, passes]
    rw [if_neg (by simp), ← sm_eq, tracked]
    have keeps : ({ now.addMsg sm with fss := fss } : MemStore).cfg.discard ≠ .discardOld := by
      simp [addMsg, discardNew]
    simp only [enforceMsgLimit, if_pos (Or.inl keeps), enforceBytesLimit]
  · simp [addMsg, holding.msgs, add_assoc]
  · simp [addMsg, holding.bytes, add_assoc, StoreMsg.size, sm_eq]
  · intro subj
    have here : indexed (now.addMsg sm) subj ≤ indexed ms subj + countOf before subj :=
      holding.subjects subj
    have := counts subj
    simp only [countOf, countP_append, countP_singleton, decide_eq_true_eq] at here ⊢
    omega

namespace Stream

variable {st : Stream} {ms : MemStore} {tree : FssTree}

theorem storeAll_fits (backs : Backs st ms tree) {before rest : List Msg} {now : MemStore}
    (holding : Holding ms before now)
    (fits : ∀ front m back, rest = front ++ m :: back →
      ¬ st.TotalsOver (before ++ front ++ [m]) ∧
        ¬ st.SubjectOver (before ++ front ++ [m]) m.subj) :
    ∃ ms' errs, storeAll now rest = some (ms', errs) ∧ ∀ err ∈ errs, err = none := by
  induction rest generalizing before now with
  | nil => exact ⟨now, [], rfl, by simp⟩
  | cons m rest ih =>
    obtain ⟨total, subject⟩ := fits [] m rest rfl
    rw [append_nil] at total subject
    have size : st.size = fun m => memStoreMsgSize m.subj m.hdr m.msg := by
      funext m
      simp only [Stream.size, backs.raw, memStoreMsgSizeRaw, memStoreMsgSize]
    simp only [TotalsOver, not_or, not_and, Int.not_lt, backs.msgs, backs.bytes, size,
      length_append, length_singleton, map_append, sum_append, map_singleton,
      sum_singleton] at total
    simp only [SubjectOver, Over, countOf, countP_append, countP_singleton,
      decide_true, if_true, Int.not_lt] at subject
    have cfg : now.cfg = st.cfg := holding.cfg.trans backs.cfg
    have maxp : now.maxp = st.cfg.maxMsgsPer := holding.maxp.trans backs.maxp
    have count := holding.subjects m.subj
    have most := backs.indexed_le m.subj
    obtain ⟨now', stores, holding'⟩ := holding.store m
      (by rw [cfg, st.discardNew]) (by rw [maxp]; simp only [countOf] at count; omega)
      (by rw [cfg, holding.msgs]; intro set; have := total.1 set; omega)
      (by rw [cfg, holding.bytes]; intro set; have := total.2 set; omega)
    obtain ⟨ms', errs, stored, none⟩ := ih holding' (by
      intro front m' back split
      have later := fits (m :: front) m' back (by rw [split, cons_append])
      simpa using later)
    refine ⟨ms', Option.none :: errs, ?_, by simpa using none⟩
    rw [storeAll, stores]
    simp only [stored, map_some]

/-- A sequence of messages is admitted as it should: each is refused for its subject exactly when the subject is
over the limit, and messages that all pass are all stored. -/
def Admits (st : Stream) (ps : List Pass) : Prop :=
  (∀ before p after, ps = before ++ p :: after →
    ((st.stage [] ps)[before.length]? = some (some .errMaxMsgsPerSubject) ↔
      st.SubjectOver (before.map Pass.toMsg ++ [p.toMsg]) p.subj)) ∧
  ∀ ms tree, Backs st ms tree → (∀ answer ∈ st.stage [] ps, answer = none) →
    ∃ ms' errs, storeAll ms (ps.map Pass.toMsg) = some (ms', errs) ∧ ∀ err ∈ errs, err = none

theorem stage_at (before : List Pass) (p : Pass) (after : List Pass) :
    (st.stage [] (before ++ p :: after))[before.length]? =
      some (st.checkMsg (st.staged (before.map Pass.toMsg)) p).2 :=
  st.stage_append [] before p after

theorem fits_of_none {before : List Msg} {p : Pass} (exact : st.Exact before p)
    (admitted : (st.checkMsg (st.staged before) p).2 = none) :
    ¬ st.TotalsOver (before ++ [p.toMsg]) ∧
      ¬ st.SubjectOver (before ++ [p.toMsg]) p.subj := by
  constructor
  · intro full
    rw [checkMsg_staged] at admitted
    simp only [if_pos full] at admitted
    exact (st.checkTotals_eq_none p _).mp admitted full
  · intro passed
    have refused := exact.mpr passed
    rw [admitted] at refused
    cases refused

end Stream

def Stream.ofMemStore (ms : MemStore) (tree : FssTree) (inflight : Inflight)
    (discardNew : ms.cfg.discard = .discardNew) (discardNewPer : ms.cfg.discardNewPer = true)
    (limited : 0 < ms.cfg.maxMsgsPer) : Stream where
  cfg := ms.cfg
  stateMsgs := ms.stateMsgs
  stateBytes := ms.stateBytes
  subjectsTotals := memStoreSubjectsTotals tree
  msgSizeRaw := memStoreMsgSizeRaw
  inflight := inflight
  stored subj := (seqsOf ms.msgs subj).card
  discardNew := discardNew
  discardNewPer := discardNewPer
  limited := limited

def onePerSubject : StreamConfig :=
  { discard := .discardNew, discardNewPer := true, maxMsgs := 10, maxBytes := -1, maxMsgsPer := 1
    firstSeq := 0 }

def emptyStream : Stream :=
  .ofMemStore (newMemStore onePerSubject) .empty [] rfl rfl (by decide)

def byPlace : Order := ⟨id, fun _ => .refl _⟩

def letter (c : UInt8) (filled : ∀ t ∈ tokenizeSubject [c], t ≠ []) : Pass where
  subj := [c]
  hdr := []
  msg := []
  ts := 0
  filled := filled
  noRollup := by decide
  overInflight := byPlace
  overDiff := byPlace

def letterA : Pass := letter 97 (by decide)
def letterB : Pass := letter 98 (by decide)

end LinearNats.Batch
