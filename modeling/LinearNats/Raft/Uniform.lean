import LinearNats.Raft.Rules

/-! Fixed membership: while no entry adds or removes a peer and every peer state names the same
cluster size, every node keeps that cluster size and its quorum. -/
namespace LinearNats.Raft
open List

def Entry.Uniform (size : Nat) : Entry → Prop
  | .addPeer _ => False
  | .removePeer _ => False
  | .peerState (some ps) => ps.clusterSize = size
  | _ => True

def AppendEntry.Uniform (size : Nat) (ae : AppendEntry) : Prop := ∀ e ∈ ae.entries, e.Uniform size

def Rpc.Uniform (size : Nat) : Rpc → Prop
  | .append ae => ae.Uniform size
  | .catchup _ _ ae => ae.Uniform size
  | _ => True

namespace Node

structure Uniform (size : Nat) (n : Node) : Prop where
  csz : n.csz = size
  qn : n.qn = size / 2 + 1
  wal : ∀ ae ∈ n.wal.entries, ae.Uniform size
  pae : ∀ p ∈ n.pae, p.2.Uniform size
  snap : ∀ s, n.snap = some s → s.peerstate.clusterSize = size

variable {size : Nat}

variable {n : Node}

theorem Uniform.of_part {m : Node} (uniform : n.Uniform size) (same : m.sizePart = n.sizePart) :
    m.Uniform size := by
  cases m
  simp only [sizePart, Prod.mk.injEq] at same
  obtain ⟨rfl, rfl, rfl, rfl, rfl⟩ := same
  exact { uniform with }

theorem writeTermVote_size (n : Node) : n.writeTermVote.sizePart = n.sizePart := by
  unfold writeTermVote
  split
  · rfl
  split
  · rfl
  split
  · rfl
  unfold setWriteErrLocked
  split
  · rfl
  · split
    · rfl
    · split <;> rfl

theorem stepdownLocked_size (n : Node) (leader : Option Id) :
    (n.stepdownLocked leader).sizePart = n.sizePart := by
  unfold stepdownLocked switchToFollowerLocked
  split
  · rfl
  next opened =>
    simp only [switchState, opened, if_false]
    exact writeTermVote_size _

theorem mem_truncate {w : Wal} {index : Nat} {ae : AppendEntry}
    (member : ae ∈ (w.truncate index).entries) : ae ∈ w.entries := by
  unfold Wal.truncate at member
  split at member
  · cases member
  · exact mem_of_mem_take member

theorem mem_compact {w : Wal} {index : Nat} {ae : AppendEntry}
    (member : ae ∈ (w.compact index).entries) : ae ∈ w.entries := by
  unfold Wal.compact at member
  split at member
  · exact member
  · exact mem_of_mem_drop member

theorem Uniform.truncateWAL (uniform : n.Uniform size) (term index : Nat) :
    (n.truncateWAL term index).Uniform size where
  __ := uniform
  wal ae member := uniform.wal ae (mem_truncate member)
  snap := by
    intro s held
    simp only [Node.truncateWAL, Option.filter_eq_some_iff] at held
    exact uniform.snap s held.1

theorem Uniform.installSnapshot (uniform : n.Uniform size) (snap : Snapshot)
    (sized : snap.peerstate.clusterSize = size) : (n.installSnapshot snap).Uniform size where
  __ := uniform
  wal ae member := uniform.wal ae (mem_compact member)
  snap := by
    intro s held
    cases held
    exact sized

theorem Uniform.processPeerState (uniform : n.Uniform size) {ps : PeerState}
    (sized : ps.clusterSize = size) : (n.processPeerState ps).Uniform size :=
  { uniform with csz := sized, qn := by simp [Node.processPeerState, sized] }

theorem Uniform.applyEntries {ae : AppendEntry} (uniform : n.Uniform size) (committed : List Entry)
    {entries : List Entry} (plain : ∀ e ∈ entries, e.Uniform size) :
    (Node.applyEntries ae n committed entries).1.Uniform size := by
  induction entries generalizing n committed with
  | nil => exact uniform
  | cons e rest ih =>
    have head := plain e mem_cons_self
    have tail : ∀ e ∈ rest, e.Uniform size := fun e he => plain e (mem_cons_of_mem _ he)
    cases e with
    | normal data => exact ih uniform _ tail
    | oldSnapshot data => exact ih uniform _ tail
    | snapshot data =>
      refine ih ?_ _ tail
      split
      · exact uniform.installSnapshot _ uniform.csz
      · exact uniform
    | peerState ps =>
      refine ih ?_ _ tail
      cases ps with
      | none => exact uniform
      | some ps =>
        simp only []
        split
        · exact uniform.processPeerState head
        · exact uniform
    | addPeer peer => exact head.elim
    | removePeer peer => exact head.elim
    | leaderTransfer peer => exact ih uniform _ tail
    | catchup => exact ih uniform _ tail

theorem Uniform.switchState (uniform : n.Uniform size) (state : RaftState) :
    (n.switchState state).Uniform size := by
  unfold Node.switchState
  split
  · exact uniform
  refine Uniform.of_part ?_ (writeTermVote_size _)
  refine { uniform with pae := fun p member => ?_ }
  simp only [] at member
  split at member
  · cases member
  · exact uniform.pae p member

theorem rise_stepdown_size (n : Node) (term : Nat) (leader : Option Id) :
    (((n.raiseTerm term).writeTermVote).stepdownLocked leader).sizePart = n.sizePart := by
  rw [stepdownLocked_size, writeTermVote_size]
  rfl

theorem Uniform.installLeaderSnapshot (uniform : n.Uniform size) {ae : AppendEntry}
    (plain : ae.Uniform size) : (n.installLeaderSnapshot ae).Uniform size := by
  unfold Node.installLeaderSnapshot
  split
  next data ps entries =>
    have sized : ps.clusterSize = size :=
      plain (.peerState (some ps)) (by rw [entries]; simp)
    have peers := uniform.processPeerState sized
    have moved : ({ n.processPeerState ps with
        pindex := ae.pindex, pterm := ae.pterm, commit := ae.pindex } : Node).Uniform size :=
      peers.of_part rfl
    have installed := moved.installSnapshot
      ⟨ae.pterm, ae.pindex, Node.currentPeerState { n.processPeerState ps with
        pindex := ae.pindex, pterm := ae.pterm, commit := ae.pindex }, data⟩ moved.csz
    cases n.snap.isSome <;> exact installed.of_part (congrArg Prod.snd (sendCatchupSignal_key _))
  · exact uniform.of_part (congrArg Prod.snd (cancelCatchup_key n))

theorem Uniform.handles (size : Nat) :
    Handles (Uniform size) (Entry.Uniform size) (Rpc.Uniform size) where
  same uniform key := uniform.of_part (congrArg Prod.snd key)
  stepdown leader uniform := uniform.of_part (stepdownLocked_size _ leader)
  truncate term index uniform := uniform.truncateWAL term index
  store uniform plain := by
    refine { uniform with wal := ?_ }
    exact forall_mem_append.mpr ⟨uniform.wal, forall_mem_singleton.mpr plain⟩
  cache uniform plain := by
    refine { uniform with pae := forall_mem_cons.mpr ⟨plain, fun p old => ?_⟩ }
    exact uniform.pae p (mem_of_mem_filter old)
  uncache _ uniform :=
    { uniform with pae := fun p member => uniform.pae p (mem_of_mem_filter member) }
  logged uniform := uniform.wal
  cached uniform := uniform.pae
  apply uniform plain := uniform.applyEntries [] plain
  transfer _ := trivial
  adopt {n r} term leader uniform _ adopted := by
    have same : r.sizePart = n.sizePart := by
      rcases adopted with rfl | rfl
      · rfl
      · exact writeTermVote_size _
    exact ⟨uniform.of_part ((stepdownLocked_size r leader).trans same),
      fun _ => uniform.of_part same⟩
  write uniform _ := uniform.of_part (writeTermVote_size _)
  install uniform plain := uniform.installLeaderSnapshot plain
  close uniform := uniform.of_part rfl
  response _ _ := trivial
  append _ plain := plain
  snapshot uniform held _ _ _ := by
    simp [Rpc.Uniform, AppendEntry.Uniform, Entry.Uniform, buildAppendEntry, uniform.snap _ held]

theorem Uniform.switchToLeader (uniform : n.Uniform size) :
    n.switchToLeader.1.Uniform size ∧ ∀ rpc ∈ n.switchToLeader.2, rpc.Uniform size := by
  unfold Node.switchToLeader
  split
  · exact ⟨uniform, by simp⟩
  have leads : (({ n with leader := some n.id } : Node).switchState .leader).Uniform size :=
    (uniform.of_part rfl : ({ n with leader := some n.id } : Node).Uniform size).switchState _
  refine (handles size).sends leads ?_ true
  intro e member
  rw [mem_singleton.mp member]
  exact leads.csz

theorem adoptTerm_size (n : Node) (term : Nat) : (n.adoptTerm term).sizePart = n.sizePart := by
  unfold adoptTerm
  split
  · rw [writeTermVote_size]
    refine (congrArg Prod.snd (cancelCatchup_key _)).trans ?_
    split
    · exact stepdownLocked_size n none
    · rfl
  · rfl

theorem processVoteRequest_size (n : Node) (vr : VoteRequest) (reply : Id) :
    (n.processVoteRequest vr reply).1.sizePart = n.sizePart := by
  unfold processVoteRequest
  split
  · rfl
  simp only []
  split
  · exact (writeTermVote_size _).trans (adoptTerm_size n _)
  · exact adoptTerm_size n _

theorem Uniform.switchToCandidate (uniform : n.Uniform size) :
    n.switchToCandidate.Uniform size := by
  unfold Node.switchToCandidate
  split
  · exact uniform
  split
  · exact uniform
  · exact Uniform.switchState (n := { n with
      term := n.term + 1, vote := none, quorumPaused := false, leader := none })
      (uniform.of_part rfl) .candidate

theorem recheck_size (n : Node) : n.recheck.sizePart = n.sizePart := by
  unfold recheck
  split
  · split <;> rfl
  · split <;> rfl
  · split <;> rfl
  · rfl

section

variable (uniform : n.Uniform size)

include uniform

theorem Uniform.electTimeout (elapsed : Bool) : (n.electTimeout elapsed).Uniform size := by
  unfold Node.electTimeout
  split
  · split
    · exact uniform
    · split
      · refine Uniform.of_part (uniform.of_part (congrArg Prod.snd (catchupStalled_key n elapsed))) ?_
        simp only []
        split
        · exact (recheck_size _).trans (congrArg Prod.snd (cancelCatchup_key _))
        · exact recheck_size _
      · exact uniform.switchToCandidate.of_part rfl
  · exact uniform.switchToCandidate.of_part rfl
  · exact uniform

theorem Uniform.candidateVote (votes emptyVotes : List Id) (vresp : VoteResponse) :
    (n.candidateVote votes emptyVotes vresp).1.Uniform size ∧
      ∀ rpc ∈ (n.candidateVote votes emptyVotes vresp).2, rpc.Uniform size := by
  unfold Node.candidateVote countVote
  simp only []
  split
  · split
    · exact ⟨uniform.switchToLeader.1.of_part rfl, uniform.switchToLeader.2⟩
    · exact ⟨uniform.of_part rfl, by simp⟩
  · split
    · exact ⟨uniform.of_part (rise_stepdown_size n _ none), by simp⟩
    · exact ⟨uniform, by simp⟩

theorem Uniform.popVote : n.popVote.1.Uniform size ∧ ∀ rpc ∈ n.popVote.2, rpc.Uniform size := by
  unfold Node.popVote
  split
  · exact ⟨uniform, by simp⟩
  rename_i vresp rest _
  have popped : ({ n with votes := rest } : Node).Uniform size := uniform.of_part rfl
  simp only []
  split
  · exact ⟨popped, by simp⟩
  next votes emptyVotes _ =>
    obtain ⟨counted, plain⟩ := popped.candidateVote votes emptyVotes vresp
    exact ⟨counted.of_part (recheck_size _), plain⟩
  · split
    · exact ⟨popped.of_part (stepdownLocked_size _ none), by simp⟩
    · exact ⟨popped, by simp⟩
  · exact ⟨uniform, by simp⟩

theorem catchupNext_uniform (k : Nat) :
    (n.catchupNext k).1.Uniform size ∧ ∀ rpc ∈ (n.catchupNext k).2, rpc.Uniform size := by
  unfold catchupNext
  split
  · split
    · exact ⟨uniform, by simp⟩
    · split
      next found =>
        refine ⟨uniform.of_part rfl, ?_⟩
        intro rpc member
        have stored := uniform.wal _ (load_mem found)
        rw [mem_singleton.mp member]
        exact stored
      · exact ⟨uniform, by simp⟩
  · exact ⟨uniform, by simp⟩

theorem Uniform.takeSnapshot (data : String) : (n.takeSnapshot data).Uniform size := by
  unfold Node.takeSnapshot
  split
  · exact uniform
  · split
    · exact uniform.installSnapshot _ uniform.csz
    · exact uniform

end

end Node

def Input.Uniform (size : Nat) : Input → Prop
  | .appendEntries batch => ∀ inc ∈ batch, inc.ae.Uniform size
  | .propose entries => ∀ e ∈ entries, e.Uniform size
  | .membership _ => False
  | _ => True

namespace Node

variable {size : Nat}

theorem dispatch_size (n : Node) : n.dispatch.sizePart = n.sizePart := by
  unfold dispatch
  split <;> rfl

variable {n : Node}

theorem startCampaign_uniform (uniform : n.Uniform size) :
    n.startCampaign.1.Uniform size ∧ ∀ rpc ∈ n.startCampaign.2, rpc.Uniform size := by
  unfold startCampaign requestVote
  simp only []
  split
  · exact ⟨uniform.of_part rfl, by simp⟩
  · exact ⟨uniform.of_part (writeTermVote_size _), by simp [Rpc.Uniform]⟩

theorem Uniform.step (uniform : n.Uniform size) {input : Input} (plain : input.Uniform size) :
    (n.step input).1.Uniform size ∧ ∀ rpc ∈ (n.step input).2, rpc.Uniform size := by
  have settled : ∀ {result : Node × List Rpc},
      (result.1.Uniform size ∧ ∀ rpc ∈ result.2, rpc.Uniform size) →
      (finish result).1.Uniform size ∧ ∀ rpc ∈ (finish result).2, rpc.Uniform size :=
    fun h => ⟨h.1.of_part (recheck_size _), h.2⟩
  cases input with
  | dispatch =>
    exact ⟨uniform.of_part ((recheck_size _).trans (dispatch_size n)), by simp [Node.step]⟩
  | campaign =>
    simp only [Node.step]
    split
    · exact settled (startCampaign_uniform uniform)
    · exact ⟨uniform, by simp⟩
  | electTimeout elapsed => exact ⟨uniform.electTimeout elapsed, by simp [Node.step]⟩
  | popVote => exact uniform.popVote
  | voteResponse vresp =>
    refine ⟨uniform.of_part ?_, by simp [Node.step]⟩
    simp only [Node.step, queueVote]
    split <;> rfl
  | voteRequest vr reply =>
    simp only [Node.step]
    split
    · refine settled ⟨uniform.of_part (processVoteRequest_size n vr reply), ?_⟩
      unfold processVoteRequest
      split
      · simp [Rpc.Uniform]
      simp only []
      split
      · simp [Rpc.Uniform]
      · simp [Rpc.Uniform]
    · exact ⟨uniform, by simp⟩
  | appendEntries batch =>
    simp only [Node.step]
    split
    · exact settled ((Uniform.handles size).appendBatch uniform batch plain)
    · exact ⟨uniform, by simp⟩
  | responses batch healthy =>
    simp only [Node.step]
    split
    · exact settled ((Uniform.handles size).responseBatch uniform healthy batch)
    · exact ⟨uniform, by simp⟩
  | propose entries =>
    simp only [Node.step]
    split
    · exact ⟨uniform, by simp⟩
    · exact (Uniform.handles size).sends uniform plain true
  | membership e => exact plain.elim
  | heartbeat =>
    have nothing : ∀ e ∈ ([] : List Entry), e.Uniform size := by simp
    exact (Uniform.handles size).sends uniform nothing true
  | stepDown healthy => exact (Uniform.handles size).stepsDown uniform healthy
  | stop => exact ⟨uniform.of_part rfl, by simp [Node.step]⟩
  | processed index applied =>
    exact ⟨uniform.of_part (congrArg Prod.snd (markProcessed_key n _ _)), by simp [Node.step]⟩
  | snapshot data => exact ⟨uniform.takeSnapshot data, by simp [Node.step]⟩
  | beginCatchup k =>
    exact ⟨uniform.of_part (congrArg Prod.snd (beginCatchup_key n k)), by simp [Node.step]⟩
  | catchupNext k => exact catchupNext_uniform uniform k
  | endCatchup k => exact ⟨uniform.of_part rfl, by simp [Node.step]⟩

/-! ### Restarts -/

theorem Uniform.replay (uniform : n.Uniform size) (index : Nat) {entries : List AppendEntry}
    (plain : ∀ ae ∈ entries, ae.Uniform size) : (n.replay index entries).Uniform size := by
  induction entries generalizing n index with
  | nil => exact uniform
  | cons ae rest ih =>
    simp only [Node.replay]
    split
    · exact { uniform with wal := fun ae member => uniform.wal ae (mem_truncate member) }
    · have head : (⟨ae, none, n.id, false⟩ : Incoming).ae.Uniform size :=
        plain ae mem_cons_self
      exact ih ((handles size).processAppendEntry uniform head).1 (index + 1)
        (fun a ha => plain a (mem_cons_of_mem _ ha))

theorem Uniform.recover (uniform : n.Uniform size) : n.recover.Uniform size := by
  have sized : n.savedPeers.clusterSize = size := by
    unfold savedPeers
    cases held : n.snap with
    | none => exact uniform.csz
    | some s => exact uniform.snap s held
  have plain : ∀ ae ∈ n.savedWal.entries, ae.Uniform size := by
    unfold savedWal
    cases n.snap with
    | none => exact uniform.wal
    | some s => exact fun ae member => uniform.wal ae (mem_compact member)
  refine ⟨sized, ?_, plain, fun p member => absurd member not_mem_nil, uniform.snap⟩
  simp only [Node.recover, Node.processPeerState, sized]

theorem Uniform.restart (uniform : n.Uniform size) (recovering : Bool) :
    (n.restart recovering).Uniform size := by
  have recovered := uniform.recover
  suffices replayed : n.recover.replayWal.Uniform size from replayed.of_part rfl
  unfold replayWal
  split
  · exact recovered
  split
  · exact { recovered with wal := fun ae member => recovered.wal ae (mem_truncate member) }
  next ae _ _ _ =>
    have aligned : ({ n.recover with
        pterm := ae.pterm, commit := max n.recover.commit ae.commit } : Node).Uniform size :=
      recovered.of_part rfl
    exact aligned.replay _ recovered.wal

end Node

end LinearNats.Raft
