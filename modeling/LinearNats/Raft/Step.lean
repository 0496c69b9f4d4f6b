import LinearNats.Raft.Handle

/-! One node at a time: the inputs it can take, the loops of the `run` goroutine that take them,
and a restart from what is on disk. -/
namespace LinearNats.Raft

inductive Input
  | dispatch
  | campaign
  | electTimeout (elapsed : Bool)
  | popVote
  | voteResponse (vresp : VoteResponse)
  | voteRequest (vr : VoteRequest) (reply : Id)
  | appendEntries (batch : List Node.Incoming)
  | responses (batch : List AppendEntryResponse) (healthy : Option Id)
  | propose (entries : List Entry)
  | membership (e : Entry)
  | heartbeat
  | stepDown (healthy : Option Id)
  | stop
  | processed (index applied : Nat)
  | snapshot (data : String)
  | beginCatchup (k : Nat)
  | catchupNext (k : Nat)
  | endCatchup (k : Nat)
  deriving DecidableEq

namespace Node

def recheck (n : Node) : Node :=
  match n.loop with
  | .follower => if n.state = .follower then n else { n with loop := .run }
  | .candidate _ _ => if n.state = .candidate then n else { n with loop := .run }
  | .leader => if n.state = .leader then n else { n with loop := .run }
  | _ => n

def dispatch (n : Node) : Node :=
  match n.loop, n.state with
  | .run, .follower => { n with loop := .follower }
  | .run, .candidate => { n with loop := .campaign }
  | .run, .leader => { n with loop := .leader }
  | _, _ => n

def looping (n : Node) : Bool :=
  match n.loop with
  | .run => false
  | .campaign => false
  | _ => true

def electTimeout (n : Node) (elapsed : Bool) : Node :=
  match n.loop with
  | .follower =>
    if n.observer then n
    else if n.catchup.isSome then
      let (n, stalled) := n.catchupStalled elapsed
      (if stalled then n.cancelCatchup else n).recheck
    else { n.switchToCandidate with loop := .run }
  | .candidate _ _ => { n.switchToCandidate with loop := .run }
  | _ => n

def popVote (n : Node) : Node × List Rpc :=
  match n.votes with
  | [] => (n, [])
  | vresp :: rest =>
    let m := { n with votes := rest }
    match n.loop with
    | .follower => (m, [])
    | .candidate votes emptyVotes =>
      let (m, out) := m.candidateVote votes emptyVotes vresp
      (m.recheck, out)
    | .leader =>
      if n.term < vresp.term then ({ m.stepdownLocked none with loop := .run }, []) else (m, [])
    | _ => (n, [])

def appendBatch : Node → List Incoming → Node × List Rpc
  | n, [] => (n, [])
  | n, inc :: rest =>
    let (n, out) := n.processAppendEntry inc
    let (n, more) := appendBatch n rest
    (n, out ++ more)

def responseBatch (healthy : Option Id) : Node → List AppendEntryResponse → Node × List Rpc
  | n, [] => (n, [])
  | n, ar :: rest =>
    let (n, out) := n.processAppendEntryResponse ar healthy
    let (n, more) := responseBatch healthy n rest
    (n, out ++ more)

def finish (result : Node × List Rpc) : Node × List Rpc := (result.1.recheck, result.2)

def step (n : Node) : Input → Node × List Rpc
  | .dispatch => (n.dispatch.recheck, [])
  | .campaign => if n.loop = .campaign then finish n.startCampaign else (n, [])
  | .electTimeout elapsed => (n.electTimeout elapsed, [])
  | .popVote => n.popVote
  | .voteResponse vresp => (n.queueVote vresp, [])
  | .voteRequest vr reply =>
    if n.looping then finish (n.processVoteRequest vr reply) else (n, [])
  | .appendEntries batch => if n.looping then finish (n.appendBatch batch) else (n, [])
  | .responses batch healthy =>
    if n.loop = .leader then finish (n.responseBatch healthy batch) else (n, [])
  | .propose entries =>
    if entries = [] ∨ entries.any (·.changesMembership) then (n, [])
    else
      let (n, out, _) := n.sendAppendEntryLocked entries true
      (n, out)
  | .membership e =>
    if n.loop = .leader then
      let (n, out, _) := n.sendMembershipChange e
      finish (n, out)
    else (n, [])
  | .heartbeat => n.sendHeartbeat
  | .stepDown healthy => n.stepDown healthy
  | .stop => (n.shutdown, [])
  | .processed index applied => (n.markProcessed index applied, [])
  | .snapshot data => (n.takeSnapshot data, [])
  | .beginCatchup k => (n.beginCatchup k, [])
  | .catchupNext k => n.catchupNext k
  | .endCatchup k => (n.endCatchup k, [])

def withOutcomes (n : Node) (outcomes : List (Option WriteErr)) : Node :=
  { n with disk := ⟨n.disk.file, outcomes⟩ }

/-- `readTermVote`, as `initRaftNode` uses it. -/
def savedVote (n : Node) : TermVote :=
  match n.disk.file with
  | some tv => if tv.term > 0 then tv else ⟨0, none⟩
  | none => ⟨0, none⟩

def savedPeers (n : Node) : PeerState :=
  match n.snap with
  | some s => s.peerstate
  | none => n.currentPeerState

def savedWal (n : Node) : Wal :=
  match n.snap with
  | some s => n.wal.compact s.lastIndex
  | none => n.wal

def savedApply (n : Node) : List (Option CommittedEntry) :=
  match n.snap with
  | some s => [some ⟨s.lastIndex, [.snapshot s.data]⟩]
  | none => []

/-- `initRaftNode` before the replay. -/
def recover (n : Node) : Node :=
  let lastTerm := (n.snap.map (·.lastTerm)).getD 0
  let lastIndex := (n.snap.map (·.lastIndex)).getD 0
  { n with
    state := .follower, loop := .run, term := n.savedVote.term, vote := n.savedVote.vote
    wtv := none, werr := none, leader := none, wal := n.savedWal
    pterm := lastTerm, pindex := lastIndex, commit := lastIndex, processed := 0, applied := 0
    papplied := lastIndex, membChangeIndex := 0, acks := [], pae := [], catchup := none
    progress := [], votes := [], paused := false, hcommit := 0, quorumPaused := false
    apply := n.savedApply }.processPeerState n.savedPeers

/-- The replay of the write-ahead log, entry by entry; `index` is the one before the next. -/
def replay (n : Node) (index : Nat) : List AppendEntry → Node
  | [] => n
  | ae :: rest =>
    if ae.pindex ≠ index then { n with wal := n.wal.truncate index }
    else (n.processAppendEntry ⟨ae, none, n.id, false⟩).1.replay (index + 1) rest

/-- The first entry in our WAL initializes state but must align with our snapshot. -/
def replayWal (n : Node) : Node :=
  match n.wal.entries with
  | [] => n
  | ae :: _ =>
    if ae.pindex ≠ n.wal.base ∨ n.pindex ≠ ae.pindex then
      { n with wal := n.wal.truncate n.pindex }
    else
      { n with pterm := ae.pterm, commit := max n.commit ae.commit }.replay ae.pindex n.wal.entries

def restart (n : Node) (recovering : Bool) : Node :=
  let n := n.recover.replayWal
  { n with initializing := !recovering && n.pindex == 0, scaleUp := false }

end Node

end LinearNats.Raft
