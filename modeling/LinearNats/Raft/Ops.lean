import LinearNats.Raft.Node

/-! The operations that the message handlers of server/raft.go are built from: the term-and-vote
file, state switches, membership, the write-ahead log and committing. -/
namespace LinearNats.Raft.Node

def setWriteErrLocked (n : Node) (err : WriteErr) : Node :=
  if n.state = .closed then n
  else if n.werr = some err then n
  else if err.critical then { n with werr := some err, state := .closed }
  else n

/-- A failed write of an open node forgets `wtv`; a closed node keeps it. -/
def writeTermVote (n : Node) : Node :=
  if n.wtv = some ⟨n.term, n.vote⟩ then n
  else
    match n.disk.write ⟨n.term, n.vote⟩ with
    | (disk, none) => { n with disk := disk, wtv := some ⟨n.term, n.vote⟩ }
    | (disk, some err) =>
      if n.state = .closed then { n with disk := disk, wtv := some ⟨n.term, n.vote⟩ }
      else setWriteErrLocked { n with disk := disk, wtv := none } err

def switchState (n : Node) (state : RaftState) : Node :=
  if n.state = .closed then n
  else writeTermVote
    { n with state := state, pae := if state = .leader ∧ n.state ≠ .leader then [] else n.pae }

def switchToFollowerLocked (n : Node) (leader : Option Id) : Node :=
  if n.state = .closed then n
  else switchState { n with acks := [], leader := leader } .follower

def stepdownLocked (n : Node) (leader : Option Id) : Node := switchToFollowerLocked n leader

def switchToCandidate (n : Node) : Node :=
  if n.state = .closed then n
  else if n.observer ∨ n.paused ∨ n.processed < n.commit then n
  else switchState
    { n with term := n.term + 1, vote := none, quorumPaused := false, leader := none } .candidate

def peerNames (n : Node) : List Id := (n.peers.filter (·.2)).map (·.1)

def currentPeerState (n : Node) : PeerState := ⟨n.peerNames, n.csz⟩

def adjustClusterSizeAndQuorum (n : Node) : Node :=
  let csz := n.peers.countP (·.2)
  { n with csz := csz, qn := csz / 2 + 1 }

def addPeer (n : Node) (peer : Id) : Node :=
  adjustClusterSizeAndQuorum { n with peers := Table.set n.peers peer true }

def removePeer (n : Node) (peer : Id) : Node :=
  if (Table.get n.peers peer).isSome then
    adjustClusterSizeAndQuorum { n with peers := Table.erase n.peers peer }
  else n

def processPeerState (n : Node) (ps : PeerState) : Node :=
  { n with
    csz := ps.clusterSize
    qn := ps.clusterSize / 2 + 1
    peers := ps.knownPeers.foldl (fun peers peer => Table.set peers peer true) [] }

def cancelCatchup (n : Node) : Node :=
  match n.catchup with
  | some c => { n with catchup := none, apply := if c.signal then n.apply ++ [none] else n.apply }
  | none => n

def sendCatchupSignal (n : Node) : Node :=
  match n.catchup with
  | some c =>
    if c.signal then n
    else { n with
      catchup := some { c with signal := true }
      apply := n.apply ++ [some ⟨0, [.catchup]⟩] }
  | none => n

/-- The new inbox is numbered; numbers are never used twice. -/
def createCatchup (n : Node) (ae : AppendEntry) : Node :=
  { n with
    inboxes := n.inboxes + 1
    catchup := some ⟨n.inboxes, ae.pterm, ae.pindex, n.pindex, false⟩ }

def loadEntry (n : Node) (index : Nat) : Except LoadErr AppendEntry := n.wal.load index

def truncateWAL (n : Node) (term index : Nat) : Node :=
  let membChangeIndex :=
    if n.membChangeIndex > 0 ∧ n.membChangeIndex > index then 0 else n.membChangeIndex
  let snap := n.snap.filter (fun s => decide (s.lastIndex ≤ index))
  let commit := min n.commit index
  let processed := min n.processed commit
  { n with
    wal := n.wal.truncate index
    pterm := term
    pindex := index
    membChangeIndex := membChangeIndex
    snap := snap
    commit := commit
    processed := processed
    applied := min n.applied processed }

def resetWAL (n : Node) : Node := truncateWAL n 0 0

def installSnapshot (n : Node) (snap : Snapshot) : Node :=
  { n with snap := some snap, wal := n.wal.compact snap.lastIndex, papplied := snap.lastIndex }

def shouldStore (ae : AppendEntry) : Bool := !ae.entries.isEmpty

/-- `false` when nothing was stored. -/
def storeToWAL (n : Node) (ae : AppendEntry) : Node × Bool :=
  if n.werr.isSome then (n, false)
  else if ae.pindex + 1 ≠ n.wal.last + 1 then
    let n := if n.state = .leader then n.stepdownLocked none else n
    (n.resetWAL.cancelCatchup, false)
  else
    ({ n with wal := n.wal.store ae, pterm := ae.term, pindex := n.wal.last + 1 }, true)

def paeDropThreshold : Nat := 20000
def paeWarnThreshold : Nat := 10000
def pauseQuorumThreshold : Nat := 100000

def cachePendingEntry (n : Node) (ae : AppendEntry) : Node :=
  if n.pae.length < paeDropThreshold then { n with pae := Table.set n.pae n.pindex ae }
  else { n with pae := Table.erase n.pae n.pindex }

inductive ApplyErr
  | closed
  | loadFailed
  | removed
  deriving DecidableEq

/-- The entries of `ae` in order; `committed` collects what goes up. `true` when the node, as
leader, met its own removal. -/
def applyEntries (ae : AppendEntry) : Node → List Entry → List Entry → Node × List Entry × Bool
  | n, committed, [] => (n, committed, false)
  | n, committed, e :: rest =>
    match e with
    | .normal _ => applyEntries ae n (committed ++ [e]) rest
    | .oldSnapshot data => applyEntries ae n (committed ++ [.snapshot data]) rest
    | .snapshot data =>
      let n :=
        if ae.entries.length = 1 ∧ n.snap = none ∧ ae.commit > 0 then
          n.installSnapshot ⟨ae.pterm, ae.commit, n.currentPeerState, data⟩
        else n
      applyEntries ae n (committed ++ [e]) rest
    | .peerState ps =>
      let n := match ps with
        | some ps => if n.state ≠ .leader then n.processPeerState ps else n
        | none => n
      applyEntries ae n committed rest
    | .addPeer peer =>
      applyEntries ae { n.addPeer peer with membChangeIndex := 0 } (committed ++ [e]) rest
    | .removePeer peer =>
      let n := { n.removePeer peer with membChangeIndex := 0 }
      if peer = n.id ∧ n.state = .leader then (n, committed ++ [e], true)
      else applyEntries ae n (committed ++ [e]) rest
    | .leaderTransfer _ => applyEntries ae n committed rest
    | .catchup => applyEntries ae n committed rest

def commitEntry (n : Node) (index : Nat) (ae : AppendEntry) : Node × Option ApplyErr :=
  let (n, committed, removed) := applyEntries ae { n with commit := index } [] ae.entries
  ({ n with apply := n.apply ++ [some ⟨index, committed⟩] }, if removed then some .removed else none)

def applyCommit (n : Node) (index : Nat) : Node × Option ApplyErr :=
  if n.state = .closed then (n, some .closed)
  else if index ≤ n.commit then (n, none)
  else
    let n :=
      if n.state = .leader then { n with acks := n.acks.filter (fun a => decide (a.1 ≠ index)) }
      else n
    match Table.get n.pae index with
    | some ae =>
      let (n, err) := n.commitEntry index ae
      ({ n with pae := Table.erase n.pae index }, err)
    | none =>
      if index < n.papplied then (n, none)
      else match n.loadEntry index with
        | .ok ae => n.commitEntry index ae
        | .error .eof => (n, some .loadFailed)
        | .error .notFound =>
          let n := if n.state = .leader then n.stepdownLocked none else n
          (n.resetWAL.cancelCatchup, some .loadFailed)

/-- `applyCommit` from `index` on, `count` times, until one fails. -/
def applyCommits (n : Node) (index : Nat) : Nat → Node × Option ApplyErr
  | 0 => (n, none)
  | count + 1 =>
    match n.applyCommit index with
    | (n, none) => applyCommits n (index + 1) count
    | (n, some err) => (n, some err)

def applyThrough (n : Node) (index : Nat) : Node × Option ApplyErr :=
  n.applyCommits (n.commit + 1) (index - n.commit)

def acksAt (n : Node) (index : Nat) : List Id :=
  (n.acks.filter (fun a => decide (a.1 = index))).map (·.2)

def ackCount (n : Node) (index : Nat) : Nat :=
  (n.acksAt index).length + if (Table.get n.peers n.id).isSome then 1 else 0

/-- `none` when there is no quorum. -/
def tryCommit (n : Node) (index : Nat) : Node × Option (Option ApplyErr) :=
  if n.ackCount index < n.qn then (n, none)
  else
    let (n, err) := n.applyThrough index
    (n, some err)

def trackResponse (n : Node) (ar : AppendEntryResponse) : Node × Bool :=
  if n.state ≠ .leader then (n, false)
  else if ar.index ≤ n.commit ∨ ar.term ≠ n.term then (n, false)
  else if (Table.get n.peers ar.peer).isNone then (n, false)
  else if (ar.index, ar.peer) ∈ n.acks then (n, true)
  else ({ n with acks := (ar.index, ar.peer) :: n.acks }, true)

def buildAppendEntry (n : Node) (entries : List Entry) : AppendEntry :=
  ⟨n.id, n.term, n.commit, n.pterm, n.pindex, entries, 0⟩

def storeOwn (n : Node) (ae : AppendEntry) : Node × Bool :=
  if shouldStore ae then
    match n.storeToWAL ae with
    | (n, true) => (n.cachePendingEntry ae, true)
    | (n, false) => (n, false)
  else (n, true)

/-- The flag tells whether the entry was stored (if it has entries) and sent. -/
def sendAppendEntryLocked (n : Node) (entries : List Entry) (checkLeader : Bool) :
    Node × List Rpc × Bool :=
  if checkLeader ∧ n.state ≠ .leader then (n, [], false)
  else
    let ae := n.buildAppendEntry entries
    match n.storeOwn ae with
    | (n, true) => (if n.csz = 1 then (n.tryCommit n.pindex).1 else n, [.append ae], true)
    | (n, false) => (n, [], false)

def sendPeerState (n : Node) : Node × List Rpc :=
  let (n, out, _) := n.sendAppendEntryLocked [.peerState (some n.currentPeerState)] true
  (n, out)

def sendHeartbeat (n : Node) : Node × List Rpc :=
  let (n, out, _) := n.sendAppendEntryLocked [] true
  (n, out)

def switchToLeader (n : Node) : Node × List Rpc :=
  if n.state = .closed then (n, [])
  else ({ n with leader := some n.id }.switchState .leader).sendPeerState

/-- `sendMembershipChange`: the marker is set before the entry is sent. -/
def sendMembershipChange (n : Node) (e : Entry) : Node × List Rpc × Bool :=
  if ¬ e.changesMembership ∨ n.membChangeIndex > 0 then (n, [], false)
  else
    let (n, out, sent) :=
      { n with membChangeIndex := n.pindex + 1 }.sendAppendEntryLocked [e] true
    if ¬ sent then ({ n with membChangeIndex := 0 }, out, false)
    else match e with
      | .addPeer peer => (n.addPeer peer, out, true)
      | .removePeer peer =>
        let n := n.removePeer peer
        if n.csz = 1 then ((n.tryCommit n.pindex).1, out, true) else (n, out, true)
      | _ => (n, out, true)

end LinearNats.Raft.Node
