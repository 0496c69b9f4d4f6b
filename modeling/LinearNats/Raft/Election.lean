import LinearNats.Quorum
import LinearNats.Raft.Ledger
import LinearNats.Raft.Uniform
import LinearNats.Raft.World

/-! Election safety: a term has at most one leader, and no node votes twice in a term. The votes
are read off the network, which keeps every message that was ever sent. -/
namespace LinearNats.Raft
open List

/-- In some message `v` votes for `c` in term `t`; a vote request is a vote for its sender. -/
def Cast (net : List (Id × Rpc)) (v : Id) (t : Nat) (c : Id) : Prop :=
  ∃ rpc, (v, rpc) ∈ net ∧ rpc.ballot = some (t, c)

def Won (g : Group) (net : List (Id × Rpc)) (i : Id) (t : Nat) : Prop :=
  ∃ quorum, Majority g.members.toFinset quorum ∧ ∀ v ∈ quorum, Cast net v t i

variable {v : Id} {t : Nat} {votes emptyVotes : List Id} {vresp : VoteResponse}

theorem Cast.mono {net more : List (Id × Rpc)} {c : Id} (cast : Cast net v t c) :
    Cast (net ++ more) v t c := by
  obtain ⟨rpc, sent, ballot⟩ := cast
  exact ⟨rpc, mem_append_left more sent, ballot⟩

theorem Won.mono {g : Group} {net more : List (Id × Rpc)} {i : Id} (won : Won g net i t) :
    Won g (net ++ more) i t := by
  obtain ⟨quorum, majority, voted⟩ := won
  exact ⟨quorum, majority, fun v member => (voted v member).mono⟩

/-! ### The tally of a candidate -/

/-- The two vote maps of `runAsCandidate` and the queue in front of them hold votes of the
current term only. -/
structure Counted (net : List (Id × Rpc)) (n : Node) (votes emptyVotes : List Id) : Prop where
  own : Cast net n.id n.term n.id
  distinct : votes.Nodup
  distinctEmpty : emptyVotes.Nodup
  voted : ∀ v ∈ votes, Cast net v n.term n.id
  votedEmpty : ∀ v ∈ emptyVotes, v ≠ n.id ∧ Cast net v n.term n.id
  queued : ∀ vresp ∈ n.votes, vresp.granted = true → vresp.term = n.term →
    Cast net vresp.peer n.term n.id ∧ (vresp.peer = n.id → vresp.empty = false)

structure Tally (g : Group) (net : List (Id × Rpc)) (n : Node) : Prop where
  counting : ∀ votes emptyVotes, n.loop = .candidate votes emptyVotes →
    Counted net n votes emptyVotes
  leading : n.state = .leader → Won g net n.id n.term

variable {g : Group} {net more : List (Id × Rpc)} {n m : Node}

theorem Counted.mono (counted : Counted net n votes emptyVotes) :
    Counted (net ++ more) n votes emptyVotes where
  own := counted.own.mono
  distinct := counted.distinct
  distinctEmpty := counted.distinctEmpty
  voted := fun v member => (counted.voted v member).mono
  votedEmpty := fun v member =>
    ⟨(counted.votedEmpty v member).1, (counted.votedEmpty v member).2.mono⟩
  queued := fun vresp member granted current =>
    ⟨(counted.queued vresp member granted current).1.mono,
      (counted.queued vresp member granted current).2⟩

theorem Tally.mono (tally : Tally g net n) : Tally g (net ++ more) n :=
  ⟨fun votes emptyVotes loop => (tally.counting votes emptyVotes loop).mono,
    fun leads => (tally.leading leads).mono⟩

theorem Tally.idle (elsewhere : ∀ votes emptyVotes, n.loop ≠ .candidate votes emptyVotes)
    (follows : n.state ≠ .leader) : Tally g net n :=
  ⟨fun votes emptyVotes loop => absurd loop (elsewhere votes emptyVotes),
    fun leads => absurd leads follows⟩

theorem Counted.of_same (counted : Counted net n votes emptyVotes) (id : m.id = n.id)
    (term : m.term = n.term) (queue : m.votes = n.votes) : Counted net m votes emptyVotes := by
  refine ⟨?_, counted.distinct, counted.distinctEmpty, ?_, ?_, ?_⟩
  · rw [id, term]
    exact counted.own
  · rw [id, term]
    exact counted.voted
  · rw [id, term]
    exact counted.votedEmpty
  · rw [id, term, queue]
    exact counted.queued

theorem Tally.of_keeps (tally : Tally g net n) (keeps : Node.Keeps n m)
    (term : m.term = n.term) : Tally g net m := by
  refine ⟨?_, ?_⟩
  · intro votes emptyVotes loop
    rw [keeps.loop] at loop
    exact (tally.counting votes emptyVotes loop).of_same keeps.id term keeps.votes
  · intro leads
    rcases keeps.state with ⟨_, state⟩ | out
    · rw [keeps.id, term]
      exact tally.leading (state.symm.trans leads)
    · exact absurd leads (Node.not_leader_of_out out)

theorem Tally.leave (tally : Tally g net n) : Tally g net { n with loop := .run } :=
  ⟨fun _ _ loop => Loop.noConfusion loop, tally.leading⟩

theorem Tally.recheck (tally : Tally g net n) : Tally g net n.recheck := by
  rcases Node.recheck_loop n with same | left
  · rw [same]
    exact tally
  · rw [left]
    exact tally.leave

theorem Tally.recheck_of_out (out : Node.Out n.state) : Tally g net n.recheck := by
  refine .idle ?_ ?_
  · intro votes emptyVotes loop
    unfold Node.recheck at loop
    split at loop
    · split at loop
      next follower _ =>
        rw [follower] at loop
        cases loop
      · cases loop
    · rw [if_neg (Node.not_candidate_of_out out)] at loop
      cases loop
    · split at loop
      next leader _ =>
        rw [leader] at loop
        cases loop
      · cases loop
    next _ candidate _ => exact candidate votes emptyVotes loop
  · rcases Node.recheck_loop n with same | left
    · rw [same]
      exact Node.not_leader_of_out out
    · rw [left]
      exact Node.not_leader_of_out out

theorem Tally.keeps_recheck (tally : Tally g net n) (keeps : Node.Keeps n m) :
    Tally g net m.recheck := by
  rcases keeps.state with ⟨term, _⟩ | out
  · exact (tally.of_keeps keeps term).recheck
  · exact .recheck_of_out out

theorem Tally.castVote (tally : Tally g net n) (c : Id) : Tally g net (n.castVote c) := by
  refine ⟨?_, ?_⟩
  · intro votes emptyVotes loop
    rw [Node.castVote_loop] at loop
    exact (tally.counting votes emptyVotes loop).of_same (Node.castVote_id n c)
      (Node.castVote_term n c) (Node.castVote_votes n c)
  · intro leads
    rcases Node.castVote_state n c with same | closed
    · rw [Node.castVote_id, Node.castVote_term]
      exact tally.leading (same.symm.trans leads)
    · rw [closed] at leads
      cases leads

/-! ### Counting -/

theorem mem_addVote {counted : List Id} {empty : Bool}
    (member : v ∈ Node.addVote counted vresp empty) :
    v ∈ counted ∨ (v = vresp.peer ∧ vresp.empty = empty) := by
  unfold Node.addVote at member
  split at member
  next kind =>
    rcases mem_insert_iff.mp member with same | old
    · exact .inr ⟨same, kind⟩
    · exact .inl old
  · exact .inl member

theorem addVote_nodup {counted : List Id} (distinct : counted.Nodup) (vresp : VoteResponse)
    (empty : Bool) : (Node.addVote counted vresp empty).Nodup := by
  unfold Node.addVote
  split
  · exact distinct.insert
  · exact distinct

theorem Counted.add (counted : Counted net n votes emptyVotes)
    (cast : Cast net vresp.peer n.term n.id) (normal : vresp.peer = n.id → vresp.empty = false) :
    Counted net n (Node.addVote votes vresp false) (Node.addVote emptyVotes vresp true) where
  own := counted.own
  distinct := addVote_nodup counted.distinct vresp false
  distinctEmpty := addVote_nodup counted.distinctEmpty vresp true
  voted := by
    intro v member
    rcases mem_addVote member with old | ⟨same, _⟩
    · exact counted.voted v old
    · rw [same]
      exact cast
  votedEmpty := by
    intro v member
    rcases mem_addVote member with old | ⟨same, empty⟩
    · exact counted.votedEmpty v old
    rw [same]
    refine ⟨?_, cast⟩
    intro self
    rw [normal self] at empty
    cases empty
  queued := counted.queued

/-- Either rule of `runAsCandidate` means a majority. With all votes in, those from empty logs
and the candidate's own are one if the normal ones are not. -/
theorem Counted.won (counted : Counted net n votes emptyVotes) (uniform : n.Uniform g.size)
    (senders : ∀ v rpc, (v, rpc) ∈ net → v ∈ g.members) (won : n.won votes emptyVotes = true) :
    Won g net n.id n.term := by
  have size : g.members.toFinset.card = g.size := toFinset_card_of_nodup g.nodup
  have member : ∀ v, Cast net v n.term n.id → v ∈ g.members.toFinset := by
    rintro v ⟨rpc, sent, _⟩
    exact mem_toFinset.mpr (senders v rpc sent)
  simp only [Node.won, uniform.csz, uniform.qn, decide_eq_true_eq] at won
  by_cases enough : g.size / 2 + 1 ≤ votes.length
  · refine ⟨votes.toFinset, ⟨?_, ?_⟩, ?_⟩
    · intro v voted
      exact member v (counted.voted v (mem_toFinset.mp voted))
    · rw [size, toFinset_card_of_nodup counted.distinct]
      exact enough
    · intro v voted
      exact counted.voted v (mem_toFinset.mp voted)
  have all : votes.length + emptyVotes.length = g.size := won.resolve_left enough
  have apart : n.id ∉ emptyVotes.toFinset := by
    intro inside
    exact (counted.votedEmpty n.id (mem_toFinset.mp inside)).1 rfl
  have cast : ∀ v ∈ insert n.id emptyVotes.toFinset, Cast net v n.term n.id := by
    intro v voted
    rcases Finset.mem_insert.mp voted with self | empty
    · rw [self]
      exact counted.own
    · exact (counted.votedEmpty v (mem_toFinset.mp empty)).2
  refine ⟨insert n.id emptyVotes.toFinset, ⟨?_, ?_⟩, cast⟩
  · intro v voted
    exact member v (cast v voted)
  · rw [size, Finset.card_insert_of_notMem apart, toFinset_card_of_nodup counted.distinctEmpty]
    omega

theorem Tally.countVote (counted : Counted net n votes emptyVotes) (tally : Tally g net n)
    (uniform : n.Uniform g.size) (senders : ∀ v rpc, (v, rpc) ∈ net → v ∈ g.members)
    (cast : Cast net vresp.peer n.term n.id) (normal : vresp.peer = n.id → vresp.empty = false) :
    Tally g net (n.countVote votes emptyVotes vresp).1 := by
  have added := counted.add cast normal
  rcases Node.countVote_cases n votes emptyVotes vresp with ⟨won, leads⟩ | goes
  · obtain ⟨advance, _, ⟨term, _⟩ | out, _⟩ := Node.switchToLeader_cases n
    · rw [leads]
      refine ⟨fun _ _ loop => Loop.noConfusion loop, fun _ => ?_⟩
      simp only [advance.id, term]
      exact added.won uniform senders won
    · rw [leads]
      exact .idle (fun _ _ loop => Loop.noConfusion loop) (Node.not_leader_of_out out)
  · rw [goes]
    refine ⟨?_, tally.leading⟩
    intro votes' emptyVotes' loop
    cases loop
    exact added.of_same rfl rfl rfl

theorem Counted.pop {rest : List VoteResponse} (counted : Counted net n votes emptyVotes)
    (queue : n.votes = vresp :: rest) : Counted net { n with votes := rest } votes emptyVotes where
  own := counted.own
  distinct := counted.distinct
  distinctEmpty := counted.distinctEmpty
  voted := counted.voted
  votedEmpty := counted.votedEmpty
  queued := fun old member => counted.queued old (by rw [queue]; exact mem_cons_of_mem _ member)

theorem Tally.popVote (tally : Tally g net n) (uniform : n.Uniform g.size)
    (senders : ∀ v rpc, (v, rpc) ∈ net → v ∈ g.members) : Tally g net n.popVote.1 := by
  unfold Node.popVote
  split
  · exact tally
  rename_i vresp rest queue
  have popped : Tally g net { n with votes := rest } :=
    ⟨fun votes emptyVotes loop => (tally.counting votes emptyVotes loop).pop queue,
      tally.leading⟩
  simp only []
  split
  · exact popped
  next votes emptyVotes loop =>
    have counted := tally.counting votes emptyVotes loop
    rcases Node.candidateVote_cases { n with votes := rest } votes emptyVotes vresp with
      ⟨keeps, _⟩ | ⟨granted, current, counts⟩
    · exact popped.keeps_recheck keeps
    · obtain ⟨cast, normal⟩ := counted.queued vresp (by rw [queue]; exact mem_cons_self)
        granted current.symm
      rw [counts]
      exact (Tally.countVote (counted.pop queue) popped (uniform.of_part rfl) senders cast
        normal).recheck
  · split
    · have keeps := Node.stepdownLocked_keeps { n with votes := rest } none
      exact (popped.of_keeps keeps (Node.stepdownLocked_term _ none)).leave
    · exact popped
  · exact tally

/-! ### The other inputs -/

section

variable (tally : Tally g net n)

include tally

theorem Tally.dispatch : Tally g net n.dispatch := by
  unfold Node.dispatch
  split
  · exact ⟨fun _ _ loop => Loop.noConfusion loop, tally.leading⟩
  · exact ⟨fun _ _ loop => Loop.noConfusion loop, tally.leading⟩
  · exact ⟨fun _ _ loop => Loop.noConfusion loop, tally.leading⟩
  · exact tally

theorem Tally.electTimeout (elapsed : Bool) : Tally g net (n.electTimeout elapsed) := by
  rcases Node.electTimeout_cases n elapsed with
    ⟨m, keeps, term, h | h⟩ | ⟨m, _, _, _, state, h⟩
  · rw [h]
    exact tally.of_keeps keeps term
  · rw [h]
    exact (tally.of_keeps keeps term).leave
  · rw [h]
    refine .idle (fun _ _ loop => Loop.noConfusion loop) ?_
    rcases state with candidate | closed
    · simp only [candidate]
      decide
    · simp only [closed]
      decide

theorem Tally.queueVote (other : vresp.peer ≠ n.id)
    (sent : (vresp.peer, .voteResponse n.id vresp) ∈ net) : Tally g net (n.queueVote vresp) := by
  unfold Node.queueVote
  split
  · refine ⟨?_, tally.leading⟩
    intro votes emptyVotes loop
    have counted := tally.counting votes emptyVotes loop
    refine { counted with queued := fun queued member granted current => ?_ }
    rcases mem_append.mp member with old | new
    · exact counted.queued queued old granted current
    rw [mem_singleton.mp new] at granted current ⊢
    refine ⟨⟨_, sent, ?_⟩, fun self => absurd self other⟩
    simp only [Rpc.ballot, granted, if_true]
    exact congrArg (fun t => some (t, n.id)) current
  · exact tally

theorem Tally.processVoteRequest (vr : VoteRequest) (reply : Id) :
    Tally g net (n.processVoteRequest vr reply).1.recheck := by
  rcases Node.processVoteRequest_cases n vr reply with ⟨m, _, keeps, _, refused⟩ |
    ⟨m, _, adopted, _, _, _, sent⟩
  · rw [refused]
    exact tally.keeps_recheck keeps
  · rw [sent]
    have keeps : Node.Keeps n m := by
      rw [adopted]
      exact Node.adoptTerm_keeps n vr.term
    rcases keeps.state with ⟨term, _⟩ | out
    · exact ((tally.of_keeps keeps term).castVote vr.candidate).recheck
    refine .recheck_of_out ?_
    rcases Node.castVote_state m vr.candidate with same | closed
    · rw [same]
      exact out
    · exact .inr closed

theorem Tally.startCampaign :
    Tally g (net ++ n.startCampaign.2.map (fun rpc => (n.id, rpc))) n.startCampaign.1.recheck := by
  rcases Node.startCampaign_cases n with ⟨other, idle⟩ | ⟨state, k, cast, started⟩
  · rw [idle]
    have left : ({ n with
        votes := [⟨n.term, n.id, true, false⟩], loop := .candidate [] [] } : Node).recheck =
        { n with votes := [⟨n.term, n.id, true, false⟩], loop := .run } := by
      simp only [Node.recheck, if_neg other]
    simp only [left, map_nil, append_nil]
    exact ⟨fun _ _ loop => Loop.noConfusion loop, tally.leading⟩
  · rw [started]
    refine Tally.recheck ⟨?_, ?_⟩
    · intro votes emptyVotes loop
      cases loop
      have id : k.id = n.id := by rw [cast, Node.castVote_id]
      have term : k.term = n.term := by rw [cast, Node.castVote_term]
      have own : Cast (net ++ [(n.id, .voteRequest ⟨n.term, k.pterm, k.pindex, n.id⟩)])
          n.id k.term n.id := by
        rw [term]
        exact ⟨_, mem_append_right net mem_cons_self, rfl⟩
      refine ⟨?_, nodup_nil, nodup_nil, by simp, by simp, ?_⟩
      · simp only [id]
        exact own
      · intro vresp member _ _
        rw [mem_singleton.mp member]
        refine ⟨?_, fun _ => rfl⟩
        simp only [id]
        exact own
    · intro leads
      have candidate : k.state = .candidate ∨ k.state = .closed := by
        rw [cast]
        rcases Node.castVote_state { n with votes := [] } n.id with same | closed
        · exact .inl (same.trans state)
        · exact .inr closed
      rcases candidate with h | h
      · cases h.symm.trans leads
      · cases h.symm.trans leads

end

theorem Tally.step {w : World} (tally : Tally g w.net n) (uniform : n.Uniform g.size)
    (senders : ∀ v rpc, (v, rpc) ∈ w.net → v ∈ g.members) {input : Input}
    (delivered : w.Deliverable n.id input) :
    Tally g (w.net ++ (n.step input).2.map (fun rpc => (n.id, rpc))) (n.step input).1 := by
  by_cases quiet : input.quiet = true
  · obtain ⟨m, keeps, ⟨same, term⟩ | rechecked, _⟩ := Node.quiet_step n input quiet
    · rw [same]
      exact (tally.of_keeps keeps term).mono
    · rw [rechecked]
      exact (tally.keeps_recheck keeps).mono
  cases input with
  | dispatch => exact tally.dispatch.recheck.mono
  | campaign =>
    simp only [Node.step]
    split
    · exact tally.startCampaign
    · exact tally.mono
  | electTimeout elapsed => exact (tally.electTimeout elapsed).mono
  | popVote => exact (tally.popVote uniform senders).mono
  | voteResponse vresp => exact (tally.queueVote delivered.1 delivered.2).mono
  | voteRequest vr reply =>
    simp only [Node.step]
    split
    · exact (tally.processVoteRequest vr reply).mono
    · exact tally.mono
  | _ => exact absurd rfl quiet

/-! ### The group -/

/-- What holds of node `i`; `bars` ties its file to the votes it has sent. -/
structure Secure (g : Group) (net : List (Id × Rpc)) (i : Id) (n : Node) : Prop where
  id : n.id = i
  uniform : n.Uniform g.size
  outcomes : n.disk.outcomes = []
  sound : n.Sound
  standing : n.Standing
  bars : ∀ t c, Cast net i t c → Bars n.disk.file t c
  tally : Tally g net n

structure Orderly (g : Group) (net : List (Id × Rpc)) : Prop where
  senders : ∀ v rpc, (v, rpc) ∈ net → v ∈ g.members
  requests : ∀ v vr, (v, .voteRequest vr) ∈ net → 0 < vr.term ∧ vr.candidate = v
  uniform : ∀ v rpc, (v, rpc) ∈ net → rpc.Uniform g.size
  once : ∀ v t c c', Cast net v t c → Cast net v t c' → c = c'

structure Elects (g : Group) (w : World) : Prop where
  net : Orderly g w.net
  nodes : ∀ i, Secure g w.net i (w.nodes i)

variable {w : World} {i : Id} {input : Input}

theorem Orderly.proper (orderly : Orderly g w.net) (delivered : w.Deliverable i input) :
    input.Proper := by
  cases input with
  | voteRequest vr reply =>
    obtain ⟨positive, candidate⟩ := orderly.requests reply vr delivered.2
    exact ⟨positive, candidate.symm⟩
  | _ => trivial

theorem Orderly.plain (orderly : Orderly g w.net) (delivered : w.Deliverable i input) :
    input.Uniform g.size := by
  cases input with
  | appendEntries batch =>
    intro inc member
    obtain ⟨_, sent⟩ := delivered inc member
    cases sub : inc.sub with
    | none =>
      rw [sub] at sent
      exact sent.elim
    | some s =>
      cases s with
      | live =>
        rw [sub] at sent
        exact orderly.uniform _ _ sent
      | inbox k =>
        rw [sub] at sent
        exact orderly.uniform _ _ sent
  | propose entries =>
    intro e member
    have allowed := delivered e member
    cases e with
    | normal data => trivial
    | leaderTransfer peer => trivial
    | _ => exact allowed.elim
  | membership e => exact delivered.elim
  | _ => trivial

theorem sent_append {out : List Rpc} {rpc : Rpc}
    (sent : (v, rpc) ∈ net ++ out.map (fun rpc => (i, rpc))) :
    (v, rpc) ∈ net ∨ (v = i ∧ rpc ∈ out) := by
  rcases mem_append.mp sent with old | new
  · exact .inl old
  · obtain ⟨rpc', fresh, same⟩ := mem_map.mp new
    cases same
    exact .inr ⟨rfl, fresh⟩

theorem cast_append {out : List Rpc} {c : Id}
    (cast : Cast (net ++ out.map (fun rpc => (i, rpc))) v t c) :
    Cast net v t c ∨ (v = i ∧ ∃ rpc ∈ out, rpc.ballot = some (t, c)) := by
  obtain ⟨rpc, sent, ballot⟩ := cast
  rcases sent_append sent with old | ⟨same, member⟩
  · exact .inl ⟨rpc, old, ballot⟩
  · exact .inr ⟨same, rpc, member, ballot⟩

theorem records_of_success (outcomes : n.disk.outcomes = []) (input : Input) : n.Records input := by
  intro t c _
  refine .inr (fun err => ?_)
  rw [outcomes]
  simp

theorem Secure.step (secure : Secure g w.net i n) (orderly : Orderly g w.net)
    (delivered : w.Deliverable i input) :
    Secure g (w.net ++ (n.step input).2.map (fun rpc => (i, rpc))) i (n.step input).1 := by
  have votes := Node.step_votes secure.standing (orderly.proper delivered)
  have records := records_of_success secure.outcomes input
  refine ⟨votes.id.trans secure.id, (secure.uniform.step (orderly.plain delivered)).1, ?_,
    votes.sound secure.sound records, secure.standing.step input, ?_, ?_⟩
  · have rest := votes.outcomes
    rw [secure.outcomes] at rest
    exact suffix_nil.mp rest
  · intro t c cast
    rcases cast_append cast with old | ⟨_, rpc, sent, ballot⟩
    · exact (votes.turns secure.sound).bars secure.sound (secure.bars t c old)
    · exact ⟨_, votes.recorded secure.sound records (votes.foreseen sent ballot), .inr rfl⟩
  · have same := secure.id
    subst same
    exact secure.tally.step secure.uniform orderly.senders delivered

theorem Secure.other {out : List Rpc} {j : Id} (secure : Secure g net j n) (apart : j ≠ i) :
    Secure g (net ++ out.map (fun rpc => (i, rpc))) j n := by
  refine { secure with bars := fun t c cast => ?_, tally := secure.tally.mono }
  rcases cast_append cast with old | ⟨same, _⟩
  · exact secure.bars t c old
  · exact absurd same apart

theorem Orderly.step (orderly : Orderly g w.net) (secure : Secure g w.net i n)
    (member : i ∈ g.members) (delivered : w.Deliverable i input) :
    Orderly g (w.net ++ (n.step input).2.map (fun rpc => (i, rpc))) := by
  have votes := Node.step_votes secure.standing (orderly.proper delivered)
  refine ⟨?_, ?_, ?_, ?_⟩
  · intro v rpc inside
    rcases sent_append inside with old | ⟨same, _⟩
    · exact orderly.senders v rpc old
    · rw [same]
      exact member
  · intro v vr inside
    rcases sent_append inside with old | ⟨same, fresh⟩
    · exact orderly.requests v vr old
    · obtain ⟨positive, own⟩ := votes.request fresh
      exact ⟨positive, by rw [own, secure.id, same]⟩
  · intro v rpc inside
    rcases sent_append inside with old | ⟨_, fresh⟩
    · exact orderly.uniform v rpc old
    · exact (secure.uniform.step (orderly.plain delivered)).2 rpc fresh
  · intro v t c c' first second
    rcases cast_append first with old | ⟨same, rpc, fresh, ballot⟩
    · rcases cast_append second with old' | ⟨same, rpc, fresh, ballot⟩
      · exact orderly.once v t c c' old old'
      · rw [same] at old
        exact votes.agrees secure.sound (votes.foreseen fresh ballot) (secure.bars t c old)
    rcases cast_append second with old' | ⟨_, rpc', fresh', ballot'⟩
    · rw [same] at old'
      exact (votes.agrees secure.sound (votes.foreseen fresh ballot)
        (secure.bars t c' old')).symm
    · cases (votes.foreseen fresh ballot).symm.trans (votes.foreseen fresh' ballot')
      rfl

theorem restart_secure (id : n.id = i) (uniform : n.Uniform g.size)
    (outcomes : n.disk.outcomes = [])
    (filed : ∀ tv, n.disk.file = some tv → tv.vote ≠ none → 0 < tv.term)
    (bars : ∀ t c, Cast net i t c → Bars n.disk.file t c) (recovering : Bool) :
    Secure g net i (n.restart recovering) := by
  have keeps := Node.restart_keeps n recovering
  have out := Node.restart_out n recovering
  refine ⟨keeps.id.trans id, uniform.restart recovering, ?_, Node.restart_sound recovering filed,
    .of_out out, ?_, .idle ?_ (Node.not_leader_of_out out)⟩
  · have rest := keeps.outcomes
    rw [show n.recover.disk.outcomes = [] from outcomes] at rest
    exact suffix_nil.mp rest
  · intro t c cast
    exact Node.restart_bars recovering filed (bars t c cast)
  · intro votes emptyVotes loop
    rw [keeps.loop] at loop
    cases loop

/-- Whatever a crash cuts off, the votes that were sent are on disk. -/
theorem Secure.crash (secure : Secure g w.net i n) (orderly : Orderly g w.net)
    (delivered : w.Deliverable i input) (outcomes : List (Option WriteErr)) (early : Bool)
    (kept : Nat) (recovering : Bool) :
    Secure g w.net i (n.crash input outcomes early kept recovering) := by
  unfold Node.crash
  have standing : (n.withOutcomes outcomes).Standing := secure.standing
  have sound := secure.sound.withOutcomes outcomes
  have uniform : (n.withOutcomes outcomes).Uniform g.size := secure.uniform.of_part rfl
  have votes := Node.step_votes standing (orderly.proper delivered)
  have turns := votes.turns sound
  have stepped := (uniform.step (orderly.plain delivered)).1
  have saved : (if early then n else ((n.withOutcomes outcomes).step input).1).Uniform g.size := by
    split
    · exact secure.uniform
    · exact stepped
  apply restart_secure
  · exact votes.id.trans secure.id
  · exact { stepped with
      wal := fun ae stored => saved.wal ae (mem_of_mem_take stored), snap := saved.snap }
  · rfl
  · exact turns.filed sound
  · exact fun t c cast => turns.bars sound (secure.bars t c cast)

theorem Elects.step (elects : Elects g w) (event : Id × Input) : Elects g (w.step g event) := by
  unfold World.step
  split
  next allowed =>
    obtain ⟨member, delivered⟩ := allowed
    refine ⟨elects.net.step (elects.nodes event.1) member delivered, fun j => ?_⟩
    by_cases same : j = event.1
    · rw [same]
      simp only [World.act, World.setNode, if_true]
      exact (elects.nodes event.1).step elects.net delivered
    · simp only [World.act, World.setNode, if_neg same]
      exact (elects.nodes j).other same
  · exact elects

theorem Elects.faultyStep (elects : Elects g w) (event : Event) :
    Elects g (w.faultyStep g event) := by
  cases event with
  | act i input => exact elects.step (i, input)
  | crash i input outcomes early kept recovering =>
    simp only [World.faultyStep]
    split
    next allowed =>
      refine ⟨elects.net, fun j => ?_⟩
      by_cases same : j = i
      · rw [same]
        simp only [World.setNode, if_true]
        exact (elects.nodes i).crash elects.net allowed.2 outcomes early kept recovering
      · simp only [World.setNode, if_neg same]
        exact elects.nodes j
    · exact elects

theorem fresh_secure (g : Group) (config : Config) (i : Id) :
    Secure g [] i (Node.fresh g.members config i) := by
  refine ⟨rfl, ⟨rfl, rfl, ?_, ?_, ?_⟩, rfl, ⟨?_, ?_, ?_, ?_⟩, .of_out (.inl rfl), ?_,
    .idle ?_ (by simp [Node.fresh, Node.processPeerState])⟩
  · exact fun ae stored => absurd stored not_mem_nil
  · exact fun p cached => absurd cached not_mem_nil
  · intro s held
    cases held
  · intro tv held
    cases held
  · intro tv held
    cases held
  · intro tv held
    cases held
  · exact fun voted => absurd rfl voted
  · rintro t c ⟨rpc, sent, _⟩
    cases sent
  · intro votes emptyVotes loop
    cases loop

theorem start_elects (g : Group) (config : Id → Config) : Elects g (World.start g config) := by
  refine ⟨⟨?_, ?_, ?_, ?_⟩, fun i => fresh_secure g (config i) i⟩
  · exact fun v rpc sent => absurd sent not_mem_nil
  · exact fun v vr sent => absurd sent not_mem_nil
  · exact fun v rpc sent => absurd sent not_mem_nil
  · rintro v t c c' ⟨rpc, sent, _⟩
    cases sent

theorem run_elects (g : Group) (config : Id → Config) (events : List Event) :
    Elects g (run (World.faultyStep g) (World.start g config) events) :=
  run_invariant _ _ (fun _ event elects => elects.faultyStep event) (start_elects g config) events

theorem faultyStep_net (g : Group) (w : World) (event : Event) :
    w.net <+: (w.faultyStep g event).net := by
  cases event with
  | act i input =>
    simp only [World.faultyStep, World.step]
    split
    · exact prefix_append _ _
    · exact prefix_refl _
  | crash i input outcomes early kept recovering =>
    simp only [World.faultyStep]
    split
    · exact prefix_refl _
    · exact prefix_refl _

theorem run_net (g : Group) (w : World) (events : List Event) :
    w.net <+: (run (World.faultyStep g) w events).net :=
  run_invariant _ (fun w' => w.net <+: w'.net)
    (fun w' event kept => kept.trans (faultyStep_net g w' event)) (prefix_refl _) events

theorem leader_won (g : Group) (config : Id → Config) (events : List Event) (a : Nat) {i : Id}
    (leads : ((run (World.faultyStep g) (World.start g config) (events.take a)).nodes i).state =
      .leader) :
    Won g (run (World.faultyStep g) (World.start g config) events).net i
      ((run (World.faultyStep g) (World.start g config) (events.take a)).nodes i).term := by
  have secure := (run_elects g config (events.take a)).nodes i
  have won := secure.tally.leading leads
  rw [secure.id] at won
  have later := run_net g (run (World.faultyStep g) (World.start g config) (events.take a))
    (events.drop a)
  rw [← run_append, take_append_drop] at later
  obtain ⟨more, split⟩ := later
  rw [← split]
  exact won.mono

/-- In any run with crashes, a term has one leader at most, and nobody votes twice in it. -/
theorem election_safety (g : Group) (config : Id → Config) (events : List Event) :
    (∀ (a b : Nat) (i j : Id),
      ((run (World.faultyStep g) (World.start g config) (events.take a)).nodes i).state =
        .leader →
      ((run (World.faultyStep g) (World.start g config) (events.take b)).nodes j).state =
        .leader →
      ((run (World.faultyStep g) (World.start g config) (events.take a)).nodes i).term =
        ((run (World.faultyStep g) (World.start g config) (events.take b)).nodes j).term →
      i = j) ∧
    ∀ (v : Id) (t : Nat) (c c' : Id),
      Cast (run (World.faultyStep g) (World.start g config) events).net v t c →
      Cast (run (World.faultyStep g) (World.start g config) events).net v t c' → c = c' := by
  have once := (run_elects g config events).net.once
  refine ⟨?_, once⟩
  intro a b i j leads leads' level
  obtain ⟨quorum, majority, voted⟩ := leader_won g config events a leads
  obtain ⟨quorum', majority', voted'⟩ := leader_won g config events b leads'
  obtain ⟨v, inside, inside'⟩ := majority.meets majority'
  refine once v _ i j (voted v inside) ?_
  rw [level]
  exact voted' v inside'

def firstElection : List Event :=
  [.act "peer-one" .dispatch, .act "peer-two" .dispatch, .act "peer-one" (.electTimeout false),
    .act "peer-one" .dispatch, .act "peer-one" .campaign,
    .act "peer-two" (.voteRequest ⟨1, 0, 0, "peer-one"⟩ "peer-one"),
    .crash "peer-two" .dispatch [] false 0 false,
    .act "peer-one" (.voteResponse ⟨1, "peer-two", true, false⟩),
    .act "peer-one" .popVote, .act "peer-one" .popVote]

theorem firstElection_elects_one :
    ((run (World.faultyStep trio) (World.start trio newGroup) (firstElection.take 10)).nodes
        "peer-one").state = .leader ∧
      ∀ (b : Nat) (j : Id),
        ((run (World.faultyStep trio) (World.start trio newGroup) (firstElection.take b)).nodes
          j).state = .leader →
        ((run (World.faultyStep trio) (World.start trio newGroup) (firstElection.take b)).nodes
          j).term = 1 → "peer-one" = j := by
  have leads : ((run (World.faultyStep trio) (World.start trio newGroup)
      (firstElection.take 10)).nodes "peer-one").state = .leader := by decide +kernel
  have term : ((run (World.faultyStep trio) (World.start trio newGroup)
      (firstElection.take 10)).nodes "peer-one").term = 1 := by decide +kernel
  refine ⟨leads, fun b j leads' level => ?_⟩
  exact (election_safety trio newGroup firstElection).1 10 b "peer-one" j leads leads'
    (term.trans level.symm)

/-- Whatever crashes, a vote stays in its voter's file and holds for its whole term, and the
majority behind a leader bars the term to others for good. -/
theorem votes_outlive_crashes (g : Group) (config : Id → Config) (events : List Event) :
    let w := run (World.faultyStep g) (World.start g config)
    let n := (w events).nodes
    (∀ v t c, Cast (w events).net v t c → Bars (n v).disk.file t c ∧
      (t < (n v).term ∨ t = (n v).term ∧ (n v).vote = some c)) ∧
    ∀ a i, ((w (events.take a)).nodes i).state = .leader →
      ∃ quorum, Majority g.members.toFinset quorum ∧
        ∀ v ∈ quorum, Bars (n v).disk.file ((w (events.take a)).nodes i).term i := by
  intro w n
  have nodes := (run_elects g config events).nodes
  refine ⟨fun v t c cast => ?_, fun a i leads => ?_⟩
  · have bars := (nodes v).bars t c cast
    exact ⟨bars, (nodes v).sound.barred bars⟩
  · obtain ⟨quorum, majority, voted⟩ := leader_won g config events a leads
    exact ⟨quorum, majority, fun v inside => (nodes v).bars _ i (voted v inside)⟩

end LinearNats.Raft
