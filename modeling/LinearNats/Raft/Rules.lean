import LinearNats.Raft.Step

/-! A fact about nodes that the parts of the handlers keep is kept by every handler. -/
namespace LinearNats.Raft.Node
open List

/-- Whether the stage returns or goes on, the node satisfies `P`, and what was sent satisfies
`Q`. -/
def Stage.Holds (P : Node → Prop) (Q : Rpc → Prop) : Stage → Prop
  | .ok m => P m
  | .error (m, out) => P m ∧ ∀ rpc ∈ out, Q rpc

variable {P : Node → Prop} {Q : Rpc → Prop} {m : Node}

theorem Stage.Holds.bind {s : Stage} {next : Node → Stage} (first : s.Holds P Q)
    (second : ∀ m, P m → (next m).Holds P Q) : Stage.Holds P Q (s >>= next) := by
  cases s with
  | ok m => exact second m first
  | error returned => exact first

theorem Stage.holds_ok (h : P m) : Stage.Holds P Q (.ok m) := h

theorem Stage.holds_quiet (h : P m) : Stage.Holds P Q (.error (m, [])) := ⟨h, by simp⟩

theorem Stage.holds_send {rpc : Rpc} (h : P m) (sent : Q rpc) :
    Stage.Holds P Q (.error (m, [rpc])) := ⟨h, by simpa using sent⟩

def ballotPart (n : Node) :
    Id × Loop × List VoteResponse × Nat × Option Id × RaftState × Disk × Option TermVote :=
  (n.id, n.loop, n.votes, n.term, n.vote, n.state, n.disk, n.wtv)

def sizePart (n : Node) : Nat × Nat × Wal × List (Nat × AppendEntry) × Option Snapshot :=
  (n.csz, n.qn, n.wal, n.pae, n.snap)

def keyPart (n : Node) := (n.ballotPart, n.sizePart)

theorem cancelCatchup_key (n : Node) : n.cancelCatchup.keyPart = n.keyPart := by
  unfold cancelCatchup
  split <;> rfl

theorem sendCatchupSignal_key (n : Node) : n.sendCatchupSignal.keyPart = n.keyPart := by
  unfold sendCatchupSignal
  split
  · split <;> rfl
  · rfl

theorem catchupStalled_key (n : Node) (elapsed : Bool) :
    (n.catchupStalled elapsed).1.keyPart = n.keyPart := by
  unfold catchupStalled
  split
  · rfl
  · split <;> rfl

theorem noteEntries_key (n : Node) (entries : List Entry) :
    (entries.foldl noteEntry n).keyPart = n.keyPart := by
  induction entries generalizing n with
  | nil => rfl
  | cons e rest ih =>
    refine (ih _).trans ?_
    cases e <;> rfl

theorem trackResponse_key (n : Node) (ar : AppendEntryResponse) :
    (n.trackResponse ar).1.keyPart = n.keyPart := by
  unfold trackResponse
  split
  · rfl
  split
  · rfl
  · split
    · rfl
    · split <;> rfl

theorem beginCatchup_key (n : Node) (k : Nat) : (n.beginCatchup k).keyPart = n.keyPart := by
  unfold beginCatchup
  split
  · split
    · split <;> rfl
    · rfl
  · rfl

theorem markProcessed_key (n : Node) (index applied : Nat) :
    (n.markProcessed index applied).keyPart = n.keyPart := by
  unfold markProcessed
  split <;> rfl

/-! ### Facts that the parts of the handlers keep -/

/-- What storing and committing are built from keeps `P`; `E` is known of all entries. -/
structure Stores (P : Node → Prop) (E : Entry → Prop) : Prop where
  same : ∀ {n m : Node}, P n → m.keyPart = n.keyPart → P m
  stepdown : ∀ {n : Node} (leader : Option Id), P n → P (n.stepdownLocked leader)
  truncate : ∀ {n : Node} (term index : Nat), P n → P (n.truncateWAL term index)
  store : ∀ {n : Node} {ae : AppendEntry}, P n → (∀ e ∈ ae.entries, E e) →
    P { n with wal := n.wal.store ae, pterm := ae.term, pindex := n.wal.last + 1 }
  cache : ∀ {n : Node} {ae : AppendEntry}, P n → (∀ e ∈ ae.entries, E e) →
    P { n with pae := Table.set n.pae n.pindex ae }
  uncache : ∀ {n : Node} (index : Nat), P n → P { n with pae := Table.erase n.pae index }
  logged : ∀ {n : Node}, P n → ∀ ae ∈ n.wal.entries, ∀ e ∈ ae.entries, E e
  cached : ∀ {n : Node}, P n → ∀ p ∈ n.pae, ∀ e ∈ p.2.entries, E e
  apply : ∀ {n : Node} {ae : AppendEntry}, P n → (∀ e ∈ ae.entries, E e) →
    P (applyEntries ae n [] ae.entries).1
  transfer : ∀ peer, E (.leaderTransfer peer)

theorem load_mem {w : Wal} {index : Nat} {ae : AppendEntry} (found : w.load index = .ok ae) :
    ae ∈ w.entries := by
  unfold Wal.load at found
  split at found
  · cases found
  split at found
  next stored =>
    cases found
    exact mem_of_getElem? stored
  · cases found

namespace Stores

variable {P : Node → Prop} {E : Entry → Prop} {n : Node} {ae : AppendEntry} {entries : List Entry}

section

variable (rule : Stores P E)

include rule

theorem abandon (h : P n) :
    P (if n.state = .leader then n.stepdownLocked none else n).resetWAL.cancelCatchup := by
  refine rule.same (rule.truncate 0 0 ?_) (cancelCatchup_key _)
  split
  · exact rule.stepdown none h
  · exact h

theorem storeToWAL (h : P n) (known : ∀ e ∈ ae.entries, E e) : P (n.storeToWAL ae).1 := by
  unfold Node.storeToWAL
  split
  · exact h
  · split
    · exact rule.abandon h
    · exact rule.store h known

theorem cachePendingEntry (h : P n) (known : ∀ e ∈ ae.entries, E e) :
    P (n.cachePendingEntry ae) := by
  unfold Node.cachePendingEntry
  split
  · exact rule.cache h known
  · exact rule.uncache _ h

theorem commitEntry (h : P n) (index : Nat) (known : ∀ e ∈ ae.entries, E e) :
    P (n.commitEntry index ae).1 := by
  have start : P { n with commit := index } := rule.same h rfl
  exact rule.same (rule.apply start known) rfl

theorem applyCommit (index : Nat) (h : P n) : P (n.applyCommit index).1 := by
  unfold Node.applyCommit
  split
  · exact h
  split
  · exact h
  generalize hm : (if n.state = .leader then
    { n with acks := n.acks.filter (fun a => decide (a.1 ≠ index)) } else n : Node) = m
  have cleared : P m := by
    rw [← hm]
    split
    · exact rule.same h rfl
    · exact h
  simp only []
  split
  next ae found =>
    have known := rule.cached cleared _ (Table.mem_of_get found)
    exact rule.uncache index (rule.commitEntry cleared index known)
  split
  · exact cleared
  split
  next ae found => exact rule.commitEntry cleared index (rule.logged cleared _ (load_mem found))
  · exact cleared
  · exact rule.abandon cleared

theorem applyCommits (h : P n) (index count : Nat) : P (n.applyCommits index count).1 := by
  induction count generalizing n index with
  | zero => exact h
  | succ count ih =>
    have kept := rule.applyCommit index h
    simp only [Node.applyCommits]
    rcases result : n.applyCommit index with ⟨m, _ | err⟩
    · rw [result] at kept
      exact ih kept (index + 1)
    · rw [result] at kept
      exact kept

theorem tryCommit (h : P n) (index : Nat) : P (n.tryCommit index).1 := by
  unfold Node.tryCommit
  split
  · exact h
  · exact rule.applyCommits h _ _

theorem storeOwn (h : P n) (known : ∀ e ∈ ae.entries, E e) : P (n.storeOwn ae).1 := by
  unfold Node.storeOwn
  split
  · have stored := rule.storeToWAL h known
    rcases result : n.storeToWAL ae with ⟨m, _ | _⟩
    · rw [result] at stored
      exact stored
    · rw [result] at stored
      exact rule.cachePendingEntry stored known
  · exact h

theorem send (h : P n) (known : ∀ e ∈ entries, E e) (checkLeader : Bool) :
    P (n.sendAppendEntryLocked entries checkLeader).1 := by
  unfold sendAppendEntryLocked
  split
  · exact h
  have stored : P (n.storeOwn (n.buildAppendEntry entries)).1 := rule.storeOwn h known
  simp only []
  rcases result : n.storeOwn (n.buildAppendEntry entries) with ⟨m, _ | _⟩
  · rw [result] at stored
    exact stored
  rw [result] at stored
  simp only []
  split
  · exact rule.tryCommit stored _
  · exact stored

theorem stepDown (h : P n) (healthy : Option Id) : P (n.stepDown healthy).1 := by
  unfold Node.stepDown
  split
  · exact h
  split
  next peer =>
    have known : ∀ e ∈ [Entry.leaderTransfer peer], E e := by simpa using rule.transfer peer
    exact rule.stepdown none (rule.send h known true)
  · exact rule.stepdown none h

theorem followCommit (h : P n) (commit : Nat) : P (n.followCommit commit) := by
  unfold Node.followCommit
  split
  · have signalled := rule.same h (sendCatchupSignal_key n)
    simp only []
    split
    · exact rule.same signalled rfl
    · exact rule.applyCommits signalled _ _
  · exact h

theorem storeEntry {inc : Incoming} (h : P n) (known : ∀ e ∈ inc.ae.entries, E e) :
    P (n.storeEntry inc).1 := by
  unfold Node.storeEntry
  split
  · split
    · exact rule.same h rfl
    · have stored := rule.storeToWAL h known
      rcases result : n.storeToWAL inc.ae with ⟨m, _ | _⟩
      · rw [result] at stored
        exact stored
      · rw [result] at stored
        exact rule.same (rule.cachePendingEntry stored known) rfl
  · exact h

theorem startCatchup (h : P n) (peer : Id) (inbox start : Nat) :
    P (n.startCatchup peer inbox start) := by
  unfold Node.startCatchup
  split
  · exact rule.same h rfl
  · exact rule.stepdown none h
  · split
    · exact rule.same h rfl
    · exact rule.stepdown none h

end

end Stores

theorem sendAppendEntryLocked_out (n : Node) (entries : List Entry) (checkLeader : Bool) :
    ∀ rpc ∈ (n.sendAppendEntryLocked entries checkLeader).2.1,
      rpc = .append (n.buildAppendEntry entries) := by
  unfold sendAppendEntryLocked
  split
  · simp
  · dsimp only
    split <;> simp

/-- The handlers keep `P`, and `Q` is known of what they send. A node that adopts a later term is a
follower, or steps down. -/
structure Handles (P : Node → Prop) (E : Entry → Prop) (Q : Rpc → Prop) : Prop extends
    Stores P E where
  adopt : ∀ {n r : Node} {term : Nat} (leader : Option Id), P n → n.term < term →
    r = n.raiseTerm term ∨ r = (n.raiseTerm term).writeTermVote →
      P (r.stepdownLocked leader) ∧ (r.state = .follower → P r)
  write : ∀ {n : Node}, P n → n.state = .follower → P n.writeTermVote
  install : ∀ {n : Node} {ae : AppendEntry}, P n → (∀ e ∈ ae.entries, E e) →
    P (n.installLeaderSnapshot ae)
  close : ∀ {n : Node}, P n → P n.shutdown
  response : ∀ dest ar, Q (.response dest ar)
  append : ∀ ae : AppendEntry, (∀ e ∈ ae.entries, E e) → Q (.append ae)
  snapshot : ∀ {n : Node} {snap : Snapshot}, P n → n.snap = some snap → ∀ peer inbox pindex,
    Q (.catchup peer inbox
      { n.buildAppendEntry [.snapshot snap.data, .peerState (some snap.peerstate)] with
        pterm := snap.lastTerm, pindex := pindex })

namespace Handles

variable {P : Node → Prop} {E : Entry → Prop} {Q : Rpc → Prop} {n : Node} {inc : Incoming}

section

variable (rule : Handles P E Q) (h : P n)

include rule h

theorem sends {entries : List Entry} (known : ∀ e ∈ entries, E e) (checkLeader : Bool) :
    P (n.sendAppendEntryLocked entries checkLeader).1 ∧
      ∀ rpc ∈ (n.sendAppendEntryLocked entries checkLeader).2.1, Q rpc := by
  refine ⟨rule.send h known checkLeader, fun rpc member => ?_⟩
  rw [sendAppendEntryLocked_out n entries checkLeader rpc member]
  exact rule.append _ known

theorem stepsDown (healthy : Option Id) :
    P (n.stepDown healthy).1 ∧ ∀ rpc ∈ (n.stepDown healthy).2, Q rpc := by
  refine ⟨rule.stepDown h healthy, ?_⟩
  unfold Node.stepDown
  split
  · simp
  split
  next peer => exact (rule.sends h (by simpa using rule.transfer peer) true).2
  · simp

theorem checkLeader : (n.checkLeader inc).Holds P Q := by
  unfold Node.checkLeader
  split
  · split
    · refine Stage.holds_ok ?_
      split
      next later => exact (rule.adopt _ h later (.inr rfl)).1
      · exact rule.stepdown _ h
    · exact Stage.holds_send h (rule.response _ _)
  · exact Stage.holds_ok h

theorem checkCandidate : (n.checkCandidate inc).Holds P Q := by
  unfold Node.checkCandidate
  split
  · refine Stage.holds_ok ?_
    split
    next later => exact (rule.adopt _ h later (.inr rfl)).1
    · exact rule.stepdown _ h
  · exact Stage.holds_ok h

theorem checkTerm : (n.checkTerm inc).Holds P Q := by
  unfold Node.checkTerm
  split
  · exact Stage.holds_quiet h
  split
  next later =>
    refine Stage.holds_ok ?_
    set r := if inc.isNew then (n.raiseTerm inc.lterm).writeTermVote
      else n.raiseTerm inc.lterm with hr
    have raised : r = n.raiseTerm inc.lterm ∨ r = (n.raiseTerm inc.lterm).writeTermVote := by
      rw [hr]
      split
      · exact .inr rfl
      · exact .inl rfl
    obtain ⟨down, stays⟩ := rule.adopt (some inc.ae.leader) h later raised
    split
    · exact down
    · rename_i follower
      exact stays (not_not.mp follower)
  · split
    · split
      · exact Stage.holds_send h (rule.response _ _)
      · exact Stage.holds_quiet h
    · exact Stage.holds_ok h

theorem checkCatchup : (n.checkCatchup inc).Holds P Q := by
  unfold Node.checkCatchup
  split
  · exact Stage.holds_ok h
  split
  · exact Stage.holds_ok (rule.same h (cancelCatchup_key n))
  split
  · have stalled := rule.same h (catchupStalled_key n inc.elapsed)
    rcases result : n.catchupStalled inc.elapsed with ⟨m, _ | _⟩
    · rw [result] at stalled
      exact Stage.holds_quiet stalled
    · rw [result] at stalled
      exact Stage.holds_send (rule.same stalled rfl) (rule.response _ _)
  · exact Stage.holds_ok h

theorem trackLeader : P (n.trackLeader inc) := by
  unfold Node.trackLeader
  split
  next follows =>
    have noted : P { n with leader := some inc.ae.leader } := rule.same h rfl
    exact rule.write noted follows.2.2
  · exact h

theorem checkOverrun : (n.checkOverrun inc).Holds P Q := by
  unfold Node.checkOverrun
  simp only []
  split
  · split
    · split
      · exact Stage.holds_quiet (rule.same h (cancelCatchup_key n))
      · exact Stage.holds_ok (rule.same h rfl)
    · split
      · exact Stage.holds_quiet (rule.same h (cancelCatchup_key _))
      · exact Stage.holds_ok h
  · exact Stage.holds_ok h

theorem settle (success : Bool) : Stage.Holds P Q (.error (n.settle success)) := by
  refine Stage.holds_quiet ?_
  cases success
  · exact rule.same h (cancelCatchup_key n)
  · exact h

theorem checkBelow : (n.checkBelow inc).Holds P Q := by
  unfold Node.checkBelow
  simp only []
  split
  · exact rule.settle h true
  split
  · split
    · exact rule.settle h true
    · split
      · exact rule.settle (rule.truncate _ _ h) false
      · split
        · split
          · exact Stage.holds_ok (rule.truncate _ _ h)
          · exact rule.settle (rule.truncate 0 0 h) false
        · exact rule.settle (rule.truncate 0 0 h) false
  · split
    · exact Stage.holds_ok (rule.truncate _ _ h)
    · split
      · exact rule.settle h true
      · exact rule.settle (rule.truncate _ _ h) false

theorem checkPrevious (known : ∀ e ∈ inc.ae.entries, E e) : (n.checkPrevious inc).Holds P Q := by
  unfold Node.checkPrevious
  simp only []
  split
  · exact Stage.holds_ok h
  split
  · exact rule.checkBelow h
  · split
    · exact Stage.holds_quiet (rule.install h known)
    · exact Stage.holds_send (rule.same h rfl) (rule.response _ _)

theorem acceptEntry (known : ∀ e ∈ inc.ae.entries, E e) :
    P (n.acceptEntry inc).1 ∧ ∀ rpc ∈ (n.acceptEntry inc).2, Q rpc := by
  have stored := rule.storeEntry h known
  unfold Node.acceptEntry
  rcases result : n.storeEntry inc with ⟨m, _ | _⟩
  · rw [result] at stored
    exact ⟨stored, by simp⟩
  rw [result] at stored
  refine ⟨rule.followCommit (rule.same stored (noteEntries_key m _)) _, ?_⟩
  simp only []
  split
  · simpa [accepts] using rule.response _ _
  · simp

theorem processAppendEntry (known : ∀ e ∈ inc.ae.entries, E e) :
    P (n.processAppendEntry inc).1 ∧ ∀ rpc ∈ (n.processAppendEntry inc).2, Q rpc := by
  have checked : (n.checkEntry inc).Holds P Q := by
    refine (rule.checkLeader h).bind (fun a ha => ?_)
    refine (rule.checkCandidate ha).bind (fun b hb => ?_)
    refine (rule.checkTerm hb).bind (fun c hc => ?_)
    refine (rule.checkCatchup hc).bind (fun d hd => ?_)
    refine (rule.checkOverrun (rule.trackLeader hd)).bind (fun e he => ?_)
    exact rule.checkPrevious he known
  unfold Node.processAppendEntry
  split
  · exact ⟨h, by simp⟩
  cases result : n.checkEntry inc with
  | ok m =>
    rw [result] at checked
    exact rule.acceptEntry checked known
  | error returned =>
    rw [result] at checked
    exact checked

theorem catchupFollower (ar : AppendEntryResponse) (inbox : Nat) :
    P (n.catchupFollower ar inbox).1 ∧ ∀ rpc ∈ (n.catchupFollower ar inbox).2, Q rpc := by
  unfold Node.catchupFollower sendSnapshotToFollower
  simp only []
  split
  · cases held : n.snap with
    | none => exact ⟨rule.stepdown none h, by simp⟩
    | some snap =>
      have sent := rule.snapshot h held ar.peer inbox (max snap.lastIndex n.wal.base)
      simp only []
      split
      · exact ⟨h, by simpa using sent⟩
      · exact ⟨rule.startCatchup h _ _ _, by simpa using sent⟩
  · exact ⟨rule.startCatchup h _ _ _, by simp⟩

theorem processAppendEntryResponse (ar : AppendEntryResponse) (healthy : Option Id) :
    P (n.processAppendEntryResponse ar healthy).1 ∧
      ∀ rpc ∈ (n.processAppendEntryResponse ar healthy).2, Q rpc := by
  unfold Node.processAppendEntryResponse
  split
  · have tracked := rule.same h (trackResponse_key n ar)
    rcases result : n.trackResponse ar with ⟨m, _ | _⟩
    · rw [result] at tracked
      exact ⟨tracked, by simp⟩
    rw [result] at tracked
    have tried := rule.tryCommit tracked ar.index
    simp only []
    rcases result : m.tryCommit ar.index with ⟨k, _ | _ | err⟩
    · rw [result] at tried
      exact ⟨tried, by simp⟩
    · rw [result] at tried
      have nothing : ∀ e ∈ ([] : List Entry), E e := by simp
      exact rule.sends tried nothing true
    rw [result] at tried
    cases err with
    | removed =>
      obtain ⟨down, sent⟩ := rule.stepsDown tried healthy
      exact ⟨rule.close down, sent⟩
    | closed => exact ⟨tried, by simp⟩
    | loadFailed => exact ⟨tried, by simp⟩
  · split
    · exact rule.catchupFollower h ar _
    · split
      next later => exact ⟨(rule.adopt none h later (.inr rfl)).1, by simp⟩
      · exact ⟨h, by simp⟩

theorem appendBatch (batch : List Incoming) (known : ∀ inc ∈ batch, ∀ e ∈ inc.ae.entries, E e) :
    P (n.appendBatch batch).1 ∧ ∀ rpc ∈ (n.appendBatch batch).2, Q rpc := by
  induction batch generalizing n with
  | nil => exact ⟨h, by simp [Node.appendBatch]⟩
  | cons inc rest ih =>
    obtain ⟨kept, sent⟩ := rule.processAppendEntry h (known inc mem_cons_self)
    obtain ⟨done, more⟩ := ih kept (fun i hi => known i (mem_cons_of_mem _ hi))
    exact ⟨done, forall_mem_append.mpr ⟨sent, more⟩⟩

theorem responseBatch (healthy : Option Id) (batch : List AppendEntryResponse) :
    P (n.responseBatch healthy batch).1 ∧
      ∀ rpc ∈ (n.responseBatch healthy batch).2, Q rpc := by
  induction batch generalizing n with
  | nil => exact ⟨h, by simp [Node.responseBatch]⟩
  | cons ar rest ih =>
    obtain ⟨kept, sent⟩ := rule.processAppendEntryResponse h ar healthy
    obtain ⟨done, more⟩ := ih kept
    exact ⟨done, forall_mem_append.mpr ⟨sent, more⟩⟩

end

end Handles

end LinearNats.Raft.Node
