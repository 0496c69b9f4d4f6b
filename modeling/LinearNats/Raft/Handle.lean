import LinearNats.Raft.Append

/-! Votes, responses, catch-ups and the `run` goroutine: one step of a node for each input it
can take. -/
namespace LinearNats.Raft.Node

def upToDate (n : Node) (vr : VoteRequest) : Bool :=
  n.pterm < vr.lastTerm ∨ (vr.lastTerm = n.pterm ∧ n.pindex ≤ vr.lastIndex)

def adoptTerm (n : Node) (term : Nat) : Node :=
  if n.term < term then
    let n := if n.state ≠ .follower then n.stepdownLocked none else n
    (n.cancelCatchup.raiseTerm term).writeTermVote
  else n

def voteOk (n : Node) (vr : VoteRequest) : Bool := n.vote = none ∨ n.vote = some vr.candidate

def grants (n : Node) (vr : VoteRequest) : Bool := n.voteOk vr ∧ n.upToDate vr

/-- Voting during initialization, an empty log is not reported as one. -/
def reportsEmpty (n : Node) (vr : VoteRequest) (empty : Bool) : Bool :=
  if n.voteOk vr ∧ empty ∧ n.initializing then false else empty

def castVote (n : Node) (candidate : Id) : Node := { n with vote := some candidate }.writeTermVote

def processVoteRequest (n : Node) (vr : VoteRequest) (reply : Id) : Node × List Rpc :=
  if vr.term < n.term then
    (n, [.voteResponse reply ⟨n.term, n.id, false, n.pindex = 0⟩])
  else
    let empty := (n.adoptTerm vr.term).reportsEmpty vr (n.pindex = 0)
    let n := n.adoptTerm vr.term
    if n.grants vr then
      let n := { n with term := vr.term }.castVote vr.candidate
      (n, [.voteResponse reply ⟨n.term, n.id, true, empty⟩])
    else (n, [.voteResponse reply ⟨n.term, n.id, false, empty⟩])

def requestVote (n : Node) : Node × List Rpc :=
  if n.state ≠ .candidate then (n, [])
  else
    let n := n.castVote n.id
    (n, [.voteRequest ⟨n.term, n.pterm, n.pindex, n.id⟩])

def queueVote (n : Node) (vresp : VoteResponse) : Node :=
  if n.state = .candidate ∨ n.state = .leader then { n with votes := n.votes ++ [vresp] } else n

/-- The start of `runAsCandidate`: old responses are dropped, the request goes out, and our own
vote is queued. -/
def startCampaign (n : Node) : Node × List Rpc :=
  let (n, out) := { n with votes := [] }.requestVote
  ({ n with votes := n.votes ++ [⟨n.term, n.id, true, false⟩], loop := .candidate [] [] }, out)

def addVote (counted : List Id) (vresp : VoteResponse) (empty : Bool) : List Id :=
  if vresp.empty = empty then counted.insert vresp.peer else counted

def won (n : Node) (votes emptyVotes : List Id) : Bool :=
  n.qn ≤ votes.length ∨ votes.length + emptyVotes.length = n.csz

def countVote (n : Node) (votes emptyVotes : List Id) (vresp : VoteResponse) : Node × List Rpc :=
  let votes := addVote votes vresp false
  let emptyVotes := addVote emptyVotes vresp true
  if n.won votes emptyVotes then
    let (n, out) := n.switchToLeader
    ({ n with loop := .run }, out)
  else ({ n with loop := .candidate votes emptyVotes }, [])

def candidateVote (n : Node) (votes emptyVotes : List Id) (vresp : VoteResponse) :
    Node × List Rpc :=
  if vresp.granted ∧ n.term = vresp.term then n.countVote votes emptyVotes vresp
  else if n.term < vresp.term then
    (((n.raiseTerm vresp.term).writeTermVote).stepdownLocked none, [])
  else (n, [])

def sendSnapshotToFollower (n : Node) (peer : Id) (inbox : Nat) :
    Node × List Rpc × Option Nat :=
  match n.snap with
  | none => (n.stepdownLocked none, [], none)
  | some snap =>
    let pindex := max snap.lastIndex n.wal.base
    let ae := { n.buildAppendEntry [.snapshot snap.data, .peerState (some snap.peerstate)] with
      pterm := snap.lastTerm, pindex := pindex }
    (n, [.catchup peer inbox ae], some pindex)

/-- Another `runCatchup` goroutine; one that already serves the peer is left running. -/
def addProgress (n : Node) (peer : Id) (inbox next : Nat) : Node :=
  { n with progress := ⟨peer, inbox, next, none⟩ :: n.progress }

def startCatchup (n : Node) (peer : Id) (inbox start : Nat) : Node :=
  match n.loadEntry start with
  | .ok ae => n.addProgress peer inbox ae.pindex
  | .error .eof => n.stepdownLocked none
  | .error .notFound =>
    match n.loadEntry (n.wal.base + 1) with
    | .ok ae => n.addProgress peer inbox ae.pindex
    | .error _ => n.stepdownLocked none

def catchupFollower (n : Node) (ar : AppendEntryResponse) (inbox : Nat) : Node × List Rpc :=
  let start := ar.index + 1
  if start ≤ n.wal.base then
    match n.sendSnapshotToFollower ar.peer inbox with
    | (n, out, none) => (n, out)
    | (n, out, some lastIndex) =>
      if n.wal.entries = [] ∨ n.wal.last < lastIndex + 1 then (n, out)
      else (n.startCatchup ar.peer inbox (lastIndex + 1), out)
  else (n.startCatchup ar.peer inbox start, [])

/-- `StepDown`, with the healthy peer it picked to hand over to, if any. -/
def stepDown (n : Node) (healthy : Option Id) : Node × List Rpc :=
  if n.state ≠ .leader then (n, [])
  else match healthy with
    | some peer =>
      let (n, out, _) := n.sendAppendEntryLocked [.leaderTransfer peer] true
      (n.stepdownLocked none, out)
    | none => (n.stepdownLocked none, [])

def shutdown (n : Node) : Node := { n with state := .closed }

def processAppendEntryResponse (n : Node) (ar : AppendEntryResponse) (healthy : Option Id) :
    Node × List Rpc :=
  if ar.success then
    match n.trackResponse ar with
    | (n, false) => (n, [])
    | (n, true) =>
      match n.tryCommit ar.index with
      | (n, none) => (n, [])
      | (n, some none) => n.sendHeartbeat
      | (n, some (some .removed)) =>
        let (n, out) := n.stepDown healthy
        (n.shutdown, out)
      | (n, some (some _)) => (n, [])
  else match ar.reply with
    | some inbox => n.catchupFollower ar inbox
    | none =>
      if n.term < ar.term then (((n.raiseTerm ar.term).writeTermVote).stepdownLocked none, [])
      else (n, [])

/-- `runCatchup` reads the leader's term and last index once, when it starts. -/
def beginCatchup (n : Node) (k : Nat) : Node :=
  match n.progress[k]? with
  | some p =>
    if n.state = .leader then
      if p.started = none then
        { n with progress := n.progress.set k { p with started := some (n.term, n.pindex) } }
      else n
    else { n with progress := n.progress.eraseIdx k }
  | none => n

/-- The next entry a running catch-up sends, with the term the goroutine started in. -/
def catchupNext (n : Node) (k : Nat) : Node × List Rpc :=
  match n.progress[k]? with
  | some ⟨peer, inbox, next, some (term, last)⟩ =>
    if last < next + 1 then (n, [])
    else match n.loadEntry (next + 1) with
      | .ok ae =>
        ({ n with progress := n.progress.set k ⟨peer, inbox, next + 1, some (term, last)⟩ },
          [.catchup peer inbox { ae with lterm := term }])
      | .error _ => (n, [])
  | _ => (n, [])

def endCatchup (n : Node) (k : Nat) : Node := { n with progress := n.progress.eraseIdx k }

def markProcessed (n : Node) (index applied : Nat) : Node :=
  if n.commit < index then n
  else { n with
    processed := max n.processed index
    applied := max n.applied (min applied index) }

/-- `InstallSnapshot`; the upper layer's data stands for everything applied. A snapshot that is
refused, because of a running catch-up or of another snapshot, changes nothing. -/
def takeSnapshot (n : Node) (data : String) : Node :=
  if n.state = .closed ∨ n.werr.isSome ∨ n.applied = 0 then n
  else match n.loadEntry n.applied with
    | .ok ae => n.installSnapshot ⟨ae.term, n.applied, n.currentPeerState, data⟩
    | .error _ => n

end LinearNats.Raft.Node
