import LinearNats.Raft.Rules

/-! What a step that casts no vote may do to the term, the vote, the state and the
term-and-vote file of a node. -/
namespace LinearNats.Raft
open List

def Rpc.ballot : Rpc → Option (Nat × Id)
  | .voteRequest vr => some (vr.term, vr.candidate)
  | .voteResponse dest vresp => if vresp.granted then some (vresp.term, dest) else none
  | _ => none

def Rpc.Silent (rpc : Rpc) : Prop := rpc.ballot = none

namespace Node

def Cached (n : Node) : Prop :=
  ∀ tv, n.wtv = some tv → tv.vote ≠ none → n.disk.file = some tv

/-- The term and vote of `n`, or a vote reset at a later term that `m` has reached. -/
def Between (n m : Node) (tv : TermVote) : Prop :=
  tv = ⟨n.term, n.vote⟩ ∨ (n.term < tv.term ∧ tv.term ≤ m.term ∧ tv.vote = none)

def Out (state : RaftState) : Prop := state = .follower ∨ state = .closed

/-- The term only rises, which erases the vote; the file follows at its own pace. -/
structure Advance (n m : Node) : Prop where
  id : m.id = n.id
  term : (m.term = n.term ∧ m.vote = n.vote) ∨ (n.term < m.term ∧ m.vote = none)
  file : m.disk.file = n.disk.file ∨ ∃ tv, m.disk.file = some tv ∧ Between n m tv
  outcomes : m.disk.outcomes <:+ n.disk.outcomes
  cached : n.Cached → m.Cached

structure Keeps (n m : Node) : Prop extends Advance n m where
  loop : m.loop = n.loop
  votes : m.votes = n.votes
  state : (m.term = n.term ∧ m.state = n.state) ∨ Out m.state

variable {n m k : Node}

theorem Advance.le (advance : Advance n m) : n.term ≤ m.term := by
  rcases advance.term with ⟨same, _⟩ | ⟨later, _⟩ <;> omega

theorem Advance.refl (n : Node) : Advance n n :=
  ⟨rfl, .inl ⟨rfl, rfl⟩, .inl rfl, suffix_refl _, fun h => h⟩

theorem Keeps.refl (n : Node) : Keeps n n := ⟨.refl n, rfl, rfl, .inl ⟨rfl, rfl⟩⟩

theorem Between.of_advance {tv : TermVote} (first : Advance n m) (second : Advance m k)
    (between : Between m k tv) : Between n k tv := by
  rcases between with same | ⟨later, reached, none⟩
  · rcases first.term with ⟨ht, hv⟩ | ⟨ht, hv⟩
    · exact .inl (by rw [same, ht, hv])
    · rw [same]
      exact .inr ⟨ht, second.le, hv⟩
  · exact .inr ⟨Nat.lt_of_le_of_lt first.le later, reached, none⟩

theorem Advance.trans (first : Advance n m) (second : Advance m k) :
    Advance n k where
  id := second.id.trans first.id
  term := by
    rcases first.term with ⟨ht, hv⟩ | ⟨ht, hv⟩
    · rcases second.term with ⟨ht', hv'⟩ | ⟨ht', hv'⟩
      · exact .inl ⟨ht'.trans ht, hv'.trans hv⟩
      · exact .inr ⟨by omega, hv'⟩
    · rcases second.term with ⟨ht', hv'⟩ | ⟨ht', hv'⟩
      · exact .inr ⟨by omega, hv'.trans hv⟩
      · exact .inr ⟨by omega, hv'⟩
  file := by
    rcases second.file with same | ⟨tv, file, between⟩
    · rcases first.file with same' | ⟨tv, file, between⟩
      · exact .inl (same.trans same')
      · refine .inr ⟨tv, same.trans file, ?_⟩
        rcases between with h | ⟨later, reached, none⟩
        · exact .inl h
        · exact .inr ⟨later, Nat.le_trans reached second.le, none⟩
    · exact .inr ⟨tv, file, between.of_advance first second⟩
  outcomes := second.outcomes.trans first.outcomes
  cached := fun h => second.cached (first.cached h)

theorem Keeps.trans (first : Keeps n m) (second : Keeps m k) : Keeps n k where
  toAdvance := first.toAdvance.trans second.toAdvance
  loop := second.loop.trans first.loop
  votes := second.votes.trans first.votes
  state := by
    rcases second.state with ⟨term, state⟩ | out
    · rcases first.state with ⟨term', state'⟩ | out
      · exact .inl ⟨term.trans term', state.trans state'⟩
      · exact .inr (by rw [state]; exact out)
    · exact .inr out

theorem Keeps.of_part (same : m.ballotPart = n.ballotPart) : Keeps n m := by
  cases m
  simp only [ballotPart, Prod.mk.injEq] at same
  obtain ⟨rfl, rfl, rfl, rfl, rfl, rfl, rfl, rfl⟩ := same
  exact { Keeps.refl n with }

/-! ### The term-and-vote file -/

theorem write_cases (d : Disk) (tv : TermVote) :
    ((d.write tv).2 = none ∧ (d.write tv).1.file = some tv ∧
        (d.write tv).1.outcomes <:+ d.outcomes) ∨
      (∃ err, some err ∈ d.outcomes ∧ (d.write tv).2 = some err ∧ (d.write tv).1.file = d.file ∧
        (d.write tv).1.outcomes <:+ d.outcomes) := by
  unfold Disk.write
  split
  · exact .inl ⟨rfl, rfl, suffix_refl _⟩
  next rest pending => exact .inl ⟨rfl, rfl, by rw [pending]; exact suffix_cons _ _⟩
  next err rest pending =>
    exact .inr ⟨err, by rw [pending]; exact mem_cons_self, rfl, rfl,
      by rw [pending]; exact suffix_cons _ _⟩

theorem setWriteErrLocked_cases (n : Node) (err : WriteErr) :
    n.setWriteErrLocked err = n ∨
      n.setWriteErrLocked err = { n with werr := some err, state := .closed } := by
  unfold setWriteErrLocked
  split
  · exact .inl rfl
  split
  · exact .inl rfl
  · split
    · exact .inr rfl
    · exact .inl rfl

theorem writeTermVote_cases (n : Node) :
    (n.wtv = some ⟨n.term, n.vote⟩ ∧ n.writeTermVote = n) ∨
    (∃ disk, disk.file = some ⟨n.term, n.vote⟩ ∧ disk.outcomes <:+ n.disk.outcomes ∧
      n.writeTermVote = { n with disk := disk, wtv := some ⟨n.term, n.vote⟩ }) ∨
    (∃ disk err, some err ∈ n.disk.outcomes ∧
      disk.file = n.disk.file ∧ disk.outcomes <:+ n.disk.outcomes ∧
      ((n.state = .closed ∧
          n.writeTermVote = { n with disk := disk, wtv := some ⟨n.term, n.vote⟩ }) ∨
        (n.state ≠ .closed ∧ (n.writeTermVote = { n with disk := disk, wtv := none } ∨
          n.writeTermVote =
            { n with disk := disk, wtv := none, werr := some err, state := .closed })))) := by
  unfold writeTermVote
  split
  next same => exact .inl ⟨same, rfl⟩
  rcases write_cases n.disk ⟨n.term, n.vote⟩ with ⟨ok, file, rest⟩ | ⟨err, hit, fail, file, rest⟩
  · rcases hw : n.disk.write ⟨n.term, n.vote⟩ with ⟨disk, outcome⟩
    rw [hw] at ok file rest
    simp only at ok
    subst ok
    exact .inr (.inl ⟨disk, file, rest, rfl⟩)
  · rcases hw : n.disk.write ⟨n.term, n.vote⟩ with ⟨disk, outcome⟩
    rw [hw] at fail file rest
    simp only at fail
    subst fail
    refine .inr (.inr ⟨disk, err, hit, file, rest, ?_⟩)
    by_cases closed : n.state = .closed
    · exact .inl ⟨closed, by simp [closed]⟩
    · refine .inr ⟨closed, ?_⟩
      simp only [closed, if_false]
      exact setWriteErrLocked_cases { n with disk := disk, wtv := none } err

theorem writeTermVote_eq (n : Node) : ∃ disk wtv werr state, n.writeTermVote =
    { n with disk := disk, wtv := wtv, werr := werr, state := state } := by
  rcases writeTermVote_cases n with ⟨_, h⟩ | ⟨_, _, _, h⟩ | ⟨_, _, _, _, _, ⟨_, h⟩ | ⟨_, h | h⟩⟩
  all_goals exact ⟨_, _, _, _, h⟩

@[simp] theorem writeTermVote_term (n : Node) : n.writeTermVote.term = n.term := by
  obtain ⟨_, _, _, _, same⟩ := writeTermVote_eq n
  rw [same]

@[simp] theorem writeTermVote_vote (n : Node) : n.writeTermVote.vote = n.vote := by
  obtain ⟨_, _, _, _, same⟩ := writeTermVote_eq n
  rw [same]

@[simp] theorem writeTermVote_id (n : Node) : n.writeTermVote.id = n.id := by
  obtain ⟨_, _, _, _, same⟩ := writeTermVote_eq n
  rw [same]

theorem writeTermVote_state (n : Node) :
    n.writeTermVote.state = n.state ∨ n.writeTermVote.state = .closed := by
  rcases writeTermVote_cases n with ⟨_, h⟩ | ⟨_, _, _, h⟩ | ⟨_, _, _, _, _, ⟨_, h⟩ | ⟨_, h | h⟩⟩
  all_goals simp [h]

theorem writeTermVote_keeps (known : n.state ≠ .closed ∨ n.vote = none) :
    Keeps n n.writeTermVote := by
  rcases writeTermVote_cases n with ⟨_, same⟩ | ⟨disk, file, rest, written⟩ |
    ⟨disk, err, _, file, rest, ⟨closed, failed⟩ | ⟨_, failed | failed⟩⟩
  · rw [same]; exact .refl n
  · rw [written]
    refine ⟨⟨rfl, .inl ⟨rfl, rfl⟩, .inr ⟨_, file, .inl rfl⟩, rest, ?_⟩, rfl, rfl, .inl ⟨rfl, rfl⟩⟩
    intro _ tv held _
    cases held
    exact file
  · rw [failed]
    refine ⟨⟨rfl, .inl ⟨rfl, rfl⟩, .inl file, rest, ?_⟩, rfl, rfl, .inl ⟨rfl, rfl⟩⟩
    -- a closed node remembers bytes it did not write, but never a vote
    intro _ tv held voted
    cases held
    exact absurd (known.resolve_left (fun h => h closed)) voted
  · rw [failed]
    refine ⟨⟨rfl, .inl ⟨rfl, rfl⟩, .inl file, rest, ?_⟩, rfl, rfl, .inl ⟨rfl, rfl⟩⟩
    intro _ tv held _
    cases held
  · rw [failed]
    refine ⟨⟨rfl, .inl ⟨rfl, rfl⟩, .inl file, rest, ?_⟩, rfl, rfl, .inr (.inr rfl)⟩
    intro _ tv held _
    cases held

theorem out_of_keeps (keeps : Keeps n m) (out : Out n.state) : Out m.state := by
  rcases keeps.state with ⟨_, same⟩ | gone
  · rw [same]; exact out
  · exact gone

theorem Advance.rise {term : Nat} (later : n.term < term) (advance : Advance (n.raiseTerm term) m) :
    Advance n m where
  id := advance.id
  term := by
    have reached : term ≤ m.term := advance.le
    refine .inr ⟨by omega, ?_⟩
    rcases advance.term with ⟨_, vote⟩ | ⟨_, vote⟩
    · exact vote
    · exact vote
  file := by
    have reached : term ≤ m.term := advance.le
    rcases advance.file with same | ⟨tv, file, between⟩
    · exact .inl same
    refine .inr ⟨tv, file, .inr ?_⟩
    rcases between with same | ⟨above, below, none⟩
    · rw [same]; exact ⟨later, reached, rfl⟩
    · exact ⟨Nat.lt_trans later above, below, none⟩
  outcomes := advance.outcomes
  cached := fun cached => advance.cached cached

theorem Keeps.rise {term : Nat} (later : n.term < term) (keeps : Keeps (n.raiseTerm term) m)
    (out : Out m.state) : Keeps n m :=
  ⟨keeps.toAdvance.rise later, keeps.loop, keeps.votes, .inr out⟩

/-! ### Switches of state -/

theorem switchToFollowerLocked_keeps (n : Node) (leader : Option Id) :
    Keeps n (n.switchToFollowerLocked leader) := by
  unfold switchToFollowerLocked
  split
  · exact .refl n
  rename_i opened
  have moved : Keeps n { n with acks := [], leader := leader, state := .follower } :=
    { Keeps.refl n with state := .inr (.inl rfl) }
  refine moved.trans ?_
  simp only [switchState, opened, if_false, reduceCtorEq, false_and]
  exact writeTermVote_keeps (.inl (by simp))

theorem stepdownLocked_keeps (n : Node) (leader : Option Id) :
    Keeps n (n.stepdownLocked leader) := switchToFollowerLocked_keeps n leader

theorem stepdownLocked_out (n : Node) (leader : Option Id) : Out (n.stepdownLocked leader).state := by
  unfold stepdownLocked switchToFollowerLocked
  split
  next closed => exact .inr closed
  next opened =>
    simp only [switchState, opened, if_false]
    exact out_of_keeps (writeTermVote_keeps (.inl (by simp))) (.inl rfl)

theorem stepdownLocked_term (n : Node) (leader : Option Id) :
    (n.stepdownLocked leader).term = n.term := by
  unfold stepdownLocked switchToFollowerLocked
  split
  · rfl
  next opened => simp only [switchState, opened, if_false, writeTermVote_term]

theorem stepdownLocked_eq (n : Node) (leader : Option Id) :
    ∃ disk wtv werr state acks known, n.stepdownLocked leader =
      { n with
        disk := disk, wtv := wtv, werr := werr, state := state, acks := acks
        leader := known } := by
  unfold stepdownLocked switchToFollowerLocked
  split
  · exact ⟨_, _, _, _, _, _, rfl⟩
  rename_i opened
  simp only [switchState, opened, if_false, reduceCtorEq, false_and]
  obtain ⟨_, _, _, _, h⟩ :=
    writeTermVote_eq { n with acks := [], leader := leader, state := .follower }
  exact ⟨_, _, _, _, _, _, h⟩

theorem rise_stepdown_keeps {term : Nat} (later : n.term < term) (leader : Option Id) :
    Keeps n (((n.raiseTerm term).writeTermVote).stepdownLocked leader) :=
  .rise later ((writeTermVote_keeps (.inr rfl)).trans (stepdownLocked_keeps _ _))
    (stepdownLocked_out _ _)

/-! ### What leaves the ballot alone -/

theorem cancelCatchup_eq (n : Node) :
    ∃ catchup apply, n.cancelCatchup = { n with catchup := catchup, apply := apply } := by
  unfold cancelCatchup
  split
  · exact ⟨_, _, rfl⟩
  · exact ⟨_, _, rfl⟩

theorem cancelCatchup_part (n : Node) : n.cancelCatchup.ballotPart = n.ballotPart :=
  congrArg Prod.fst (cancelCatchup_key n)

theorem removePeer_part (n : Node) (peer : Id) : (n.removePeer peer).ballotPart = n.ballotPart := by
  unfold removePeer
  split <;> rfl

theorem applyEntries_part (ae : AppendEntry) (n : Node) (committed entries : List Entry) :
    (applyEntries ae n committed entries).1.ballotPart = n.ballotPart := by
  induction entries generalizing n committed with
  | nil => rfl
  | cons e rest ih =>
    cases e with
    | normal data => exact ih _ _
    | oldSnapshot data => exact ih _ _
    | snapshot data =>
      simp only [applyEntries]
      split
      · exact ih _ _
      · exact ih _ _
    | peerState ps =>
      simp only [applyEntries]
      rw [ih]
      split
      · split <;> rfl
      · rfl
    | addPeer peer => exact ih _ _
    | removePeer peer =>
      simp only [applyEntries]
      split
      · exact removePeer_part n peer
      · exact (ih _ _).trans (removePeer_part n peer)
    | leaderTransfer peer => exact ih _ _
    | catchup => exact ih _ _

theorem installLeaderSnapshot_part (n : Node) (ae : AppendEntry) :
    (n.installLeaderSnapshot ae).ballotPart = n.ballotPart := by
  unfold installLeaderSnapshot
  split
  · cases n.snap.isSome <;> exact congrArg Prod.fst (sendCatchupSignal_key _)
  · exact cancelCatchup_part n

theorem takeSnapshot_part (n : Node) (data : String) :
    (n.takeSnapshot data).ballotPart = n.ballotPart := by
  unfold takeSnapshot
  split
  · rfl
  · split <;> rfl

theorem catchupNext_part (n : Node) (k : Nat) :
    (n.catchupNext k).1.ballotPart = n.ballotPart ∧
      ∀ rpc ∈ (n.catchupNext k).2, rpc.Silent := by
  unfold catchupNext
  split
  · split
    · exact ⟨rfl, by simp⟩
    · split
      · exact ⟨rfl, by simp [Rpc.Silent, Rpc.ballot]⟩
      · exact ⟨rfl, by simp⟩
  · exact ⟨rfl, by simp⟩

theorem term_of_part (same : m.ballotPart = n.ballotPart) : m.term = n.term :=
  congrArg (·.2.2.2.1) same

/-! ### The handlers -/

theorem Keeps.part (kept : Keeps n m) (same : k.ballotPart = m.ballotPart) :
    Keeps n k := kept.trans (.of_part same)

theorem shutdown_keeps (n : Node) : Keeps n n.shutdown :=
  { Keeps.refl n with state := .inr (.inr rfl) }

theorem keeps_handles (n : Node) : Handles (Keeps n) (fun _ => True) Rpc.Silent where
  same kept key := kept.part (congrArg Prod.fst key)
  stepdown leader kept := kept.trans (stepdownLocked_keeps _ leader)
  truncate _ _ kept := kept.part rfl
  store kept _ := kept.part rfl
  cache kept _ := kept.part rfl
  uncache _ kept := kept.part rfl
  logged _ _ _ _ _ := trivial
  cached _ _ _ _ _ := trivial
  apply kept _ := kept.part (applyEntries_part _ _ _ _)
  transfer _ := trivial
  adopt {m r} term leader kept later adopted := by
    have raised : Keeps (m.raiseTerm term) r := by
      rcases adopted with rfl | rfl
      · exact .refl _
      · exact writeTermVote_keeps (.inr rfl)
    exact ⟨kept.trans (.rise later (raised.trans (stepdownLocked_keeps r leader))
      (stepdownLocked_out r leader)), fun follows => kept.trans (.rise later raised (.inl follows))⟩
  write kept follows := kept.trans (writeTermVote_keeps (.inl (by simp [follows])))
  install kept _ := kept.part (installLeaderSnapshot_part _ _)
  close kept := kept.trans (shutdown_keeps _)
  response _ _ := rfl
  append _ _ := rfl
  snapshot _ _ _ _ _ := rfl

theorem term_stores (n : Node) : Stores (fun m => m.term = n.term) (fun _ => True) where
  same term key := (term_of_part (congrArg Prod.fst key)).trans term
  stepdown leader term := (stepdownLocked_term _ leader).trans term
  truncate _ _ term := term
  store term _ := term
  cache term _ := term
  uncache _ term := term
  logged _ _ _ _ _ := trivial
  cached _ _ _ _ _ := trivial
  apply term _ := (term_of_part (applyEntries_part _ _ _ _)).trans term
  transfer _ := trivial

theorem send_keeps (n : Node) (entries : List Entry) (checkLeader : Bool) :
    Keeps n (n.sendAppendEntryLocked entries checkLeader).1 ∧
      ∀ rpc ∈ (n.sendAppendEntryLocked entries checkLeader).2.1, rpc.Silent :=
  (keeps_handles n).sends (.refl n) (fun _ _ => trivial) checkLeader

theorem send_term (n : Node) (entries : List Entry) (checkLeader : Bool) :
    (n.sendAppendEntryLocked entries checkLeader).1.term = n.term :=
  (term_stores n).send rfl (fun _ _ => trivial) checkLeader

theorem membership_keeps (n : Node) (e : Entry) :
    Keeps n (n.sendMembershipChange e).1 ∧
      ∀ rpc ∈ (n.sendMembershipChange e).2.1, rpc.Silent := by
  unfold sendMembershipChange
  split
  · exact ⟨.refl n, by simp⟩
  obtain ⟨kept, silent⟩ :=
    send_keeps { n with membChangeIndex := n.pindex + 1 } [e] true
  have sent := (Keeps.of_part (n := n) (m := { n with membChangeIndex := n.pindex + 1 })
    rfl).trans kept
  simp only []
  split
  · exact ⟨sent.part rfl, silent⟩
  split
  · exact ⟨sent.part rfl, silent⟩
  next peer _ _ =>
    have removed := sent.part (removePeer_part _ peer)
    split
    · exact ⟨(keeps_handles n).tryCommit removed _, silent⟩
    · exact ⟨removed, silent⟩
  · exact ⟨sent, silent⟩

end Node

def Input.quiet : Input → Bool
  | .dispatch => false
  | .campaign => false
  | .electTimeout _ => false
  | .popVote => false
  | .voteResponse _ => false
  | .voteRequest _ _ => false
  | _ => true

namespace Node

theorem recheck_loop (n : Node) : n.recheck = n ∨ n.recheck = { n with loop := .run } := by
  unfold recheck
  split
  case h_4 => exact .inl rfl
  all_goals
    split
    · exact .inl rfl
    · exact .inr rfl

theorem quiet_step (n : Node) (input : Input) (quiet : input.quiet = true) :
    ∃ m, Keeps n m ∧ (((n.step input).1 = m ∧ m.term = n.term) ∨ (n.step input).1 = m.recheck) ∧
      ∀ rpc ∈ (n.step input).2, rpc.Silent := by
  cases input with
  | appendEntries batch =>
    simp only [step]
    split
    · obtain ⟨kept, silent⟩ :=
        (keeps_handles n).appendBatch (.refl n) batch (fun _ _ _ _ => trivial)
      exact ⟨_, kept, .inr rfl, silent⟩
    · exact ⟨n, .refl n, .inl ⟨rfl, rfl⟩, by simp⟩
  | responses batch healthy =>
    simp only [step]
    split
    · obtain ⟨kept, silent⟩ := (keeps_handles n).responseBatch (.refl n) healthy batch
      exact ⟨_, kept, .inr rfl, silent⟩
    · exact ⟨n, .refl n, .inl ⟨rfl, rfl⟩, by simp⟩
  | propose entries =>
    simp only [step]
    split
    · exact ⟨n, .refl n, .inl ⟨rfl, rfl⟩, by simp⟩
    · exact ⟨_, (send_keeps n entries true).1, .inl ⟨rfl, send_term n entries true⟩,
        (send_keeps n entries true).2⟩
  | membership e =>
    simp only [step]
    split
    · exact ⟨_, (membership_keeps n e).1, .inr rfl, (membership_keeps n e).2⟩
    · exact ⟨n, .refl n, .inl ⟨rfl, rfl⟩, by simp⟩
  | heartbeat =>
    obtain ⟨kept, silent⟩ := send_keeps n [] true
    exact ⟨_, kept, .inl ⟨rfl, send_term n [] true⟩, silent⟩
  | stepDown healthy =>
    obtain ⟨kept, silent⟩ := (keeps_handles n).stepsDown (.refl n) healthy
    exact ⟨_, kept, .inl ⟨rfl, (term_stores n).stepDown rfl healthy⟩, silent⟩
  | stop => exact ⟨_, shutdown_keeps n, .inl ⟨rfl, rfl⟩, by simp [step]⟩
  | processed index applied =>
    have part := congrArg Prod.fst (markProcessed_key n index applied)
    exact ⟨_, .of_part part, .inl ⟨rfl, term_of_part part⟩, by simp [step]⟩
  | snapshot data =>
    have part := takeSnapshot_part n data
    exact ⟨_, .of_part part, .inl ⟨rfl, term_of_part part⟩, by simp [step]⟩
  | beginCatchup k =>
    have part := congrArg Prod.fst (beginCatchup_key n k)
    exact ⟨_, .of_part part, .inl ⟨rfl, term_of_part part⟩, by simp [step]⟩
  | catchupNext k =>
    obtain ⟨part, silent⟩ := catchupNext_part n k
    exact ⟨_, .of_part part, .inl ⟨rfl, term_of_part part⟩, silent⟩
  | endCatchup k => exact ⟨n.endCatchup k, .of_part rfl, .inl ⟨rfl, rfl⟩, by simp [step]⟩
  | _ => cases quiet

end Node

end LinearNats.Raft
