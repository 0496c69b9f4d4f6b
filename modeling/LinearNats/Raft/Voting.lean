import LinearNats.Raft.Ballot

/-! The steps that vote: granting, campaigning, standing for election and winning it. -/
namespace LinearNats.Raft.Node

theorem adoptTerm_keeps (n : Node) (term : Nat) : Keeps n (n.adoptTerm term) := by
  unfold adoptTerm
  split
  next later =>
    set m := if n.state ≠ .follower then n.stepdownLocked none else n with hm
    obtain ⟨down, out, same⟩ : Keeps n m ∧ Out m.state ∧ m.term = n.term := by
      rw [hm]
      split
      · exact ⟨stepdownLocked_keeps n none, stepdownLocked_out n none, stepdownLocked_term n none⟩
      next follower => exact ⟨.refl n, .inl (not_not.mp follower), rfl⟩
    have cancelled : Keeps m m.cancelCatchup := .of_part (cancelCatchup_part m)
    have below : m.cancelCatchup.term < term := by
      rw [term_of_part (cancelCatchup_part m), same]
      exact later
    refine (down.trans cancelled).trans ?_
    have raised : Keeps (m.cancelCatchup.raiseTerm term) (m.cancelCatchup.raiseTerm term).writeTermVote :=
      writeTermVote_keeps (.inr rfl)
    have gone : Out m.cancelCatchup.state := out_of_keeps cancelled out
    exact .rise below raised (out_of_keeps raised gone)
  · exact .refl n

theorem adoptTerm_term {n : Node} {term : Nat} (reached : n.term ≤ term) :
    (n.adoptTerm term).term = term := by
  unfold adoptTerm
  split
  · exact writeTermVote_term _
  · omega

@[simp] theorem castVote_term (n : Node) (cand : Id) : (n.castVote cand).term = n.term :=
  writeTermVote_term _

@[simp] theorem castVote_id (n : Node) (cand : Id) : (n.castVote cand).id = n.id :=
  writeTermVote_id _

theorem with_own_term {n : Node} {term : Nat} (own : n.term = term) :
    { n with term := term } = n := by
  subst own
  rfl

theorem processVoteRequest_cases (n : Node) (vr : VoteRequest) (reply : Id) :
    (∃ m empty, Keeps n m ∧ ¬ (n.term ≤ vr.term ∧ (n.adoptTerm vr.term).grants vr = true) ∧
      n.processVoteRequest vr reply = (m, [.voteResponse reply ⟨m.term, m.id, false, empty⟩])) ∨
    (∃ m empty, m = n.adoptTerm vr.term ∧ n.term ≤ vr.term ∧ m.term = vr.term ∧
      m.grants vr = true ∧ n.processVoteRequest vr reply =
        (m.castVote vr.candidate, [.voteResponse reply ⟨vr.term, m.id, true, empty⟩])) := by
  unfold processVoteRequest
  split
  next below => exact .inl ⟨n, _, .refl n, by omega, rfl⟩
  rename_i notBelow
  have reached : n.term ≤ vr.term := by omega
  have term := adoptTerm_term reached
  have same := with_own_term term
  simp only [same, castVote_term, castVote_id, term]
  split
  next granted => exact .inr ⟨_, _, rfl, reached, term, granted, rfl⟩
  next refused => exact .inl ⟨_, _, adoptTerm_keeps n vr.term, fun h => refused h.2, by rw [term]⟩

theorem switchState_cases {n : Node} (opened : n.state ≠ .closed) (state : RaftState)
    (target : state ≠ .closed) :
    Advance n (n.switchState state) ∧ (n.switchState state).term = n.term ∧
      (n.switchState state).vote = n.vote ∧ (n.switchState state).votes = n.votes ∧
      ((n.switchState state).state = state ∨ (n.switchState state).state = .closed) := by
  unfold switchState
  rw [if_neg opened]
  generalize hr : ({ n with
    state := state
    pae := if state = .leader ∧ n.state ≠ .leader then [] else n.pae } : Node) = r
  have moved : Advance n r := by
    rw [← hr]
    exact { Advance.refl n with }
  have at_state : r.state = state := by rw [← hr]
  have kept : Keeps r r.writeTermVote := writeTermVote_keeps (.inl (by rw [at_state]; exact target))
  refine ⟨moved.trans kept.toAdvance, ?_, ?_, ?_, ?_⟩
  · rw [writeTermVote_term, ← hr]
  · rw [writeTermVote_vote, ← hr]
  · rw [kept.votes, ← hr]
  · rw [← at_state]
    exact writeTermVote_state r

theorem switchToCandidate_cases (n : Node) :
    n.switchToCandidate = n ∨
      (Advance n n.switchToCandidate ∧ n.switchToCandidate.term = n.term + 1 ∧
        n.switchToCandidate.vote = none ∧ n.switchToCandidate.votes = n.votes ∧
        (n.switchToCandidate.state = .candidate ∨ n.switchToCandidate.state = .closed)) := by
  unfold switchToCandidate
  split
  · exact .inl rfl
  rename_i opened
  split
  · exact .inl rfl
  refine .inr ?_
  generalize hr : ({ n with
    term := n.term + 1, vote := none, quorumPaused := false, leader := none } : Node) = r
  have raised : Advance (n.raiseTerm (n.term + 1)) r := by
    rw [← hr]
    exact { Advance.refl (n.raiseTerm (n.term + 1)) with }
  obtain ⟨moved, term, vote, votes, state⟩ :=
    switchState_cases (n := r) (by rw [← hr]; exact opened) .candidate (by simp)
  refine ⟨(raised.trans moved).rise (by omega), ?_, ?_, ?_, state⟩
  · rw [term, ← hr]
  · rw [vote, ← hr]
  · rw [votes, ← hr]

theorem switchToLeader_cases (n : Node) :
    Advance n n.switchToLeader.1 ∧ n.switchToLeader.1.votes = n.votes ∧
      ((n.switchToLeader.1.term = n.term ∧ n.switchToLeader.1.state = .leader) ∨
        Out n.switchToLeader.1.state) ∧
      ∀ rpc ∈ n.switchToLeader.2, rpc.Silent := by
  unfold switchToLeader
  split
  next closed => exact ⟨.refl n, rfl, .inr (.inr closed), by simp⟩
  rename_i opened
  obtain ⟨moved, term, _, votes, state⟩ := switchState_cases
    (n := { n with leader := some n.id }) opened .leader (by simp)
  generalize ({ n with leader := some n.id } : Node).switchState .leader = r
    at moved term votes state ⊢
  have start : Advance n { n with leader := some n.id } := { Advance.refl n with }
  obtain ⟨sent, silent⟩ := send_keeps r [.peerState (some r.currentPeerState)] true
  refine ⟨(start.trans moved).trans sent.toAdvance, sent.votes.trans votes, ?_, silent⟩
  rcases sent.state with ⟨same, kept⟩ | gone
  · rcases state with leads | closed
    · exact .inl ⟨same.trans term, kept.trans leads⟩
    · exact .inr (.inr (kept.trans closed))
  · exact .inr gone

end LinearNats.Raft.Node
