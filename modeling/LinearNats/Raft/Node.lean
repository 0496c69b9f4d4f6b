import LinearNats.Table

/-! The state of one node of a Raft group (`type raft` in server/raft.go), the messages it
exchanges, its write-ahead log and its term-and-vote file. -/
namespace LinearNats.Raft

abbrev Id := String

def idLen : Nat := 8

inductive RaftState
  | follower
  | leader
  | candidate
  | closed
  deriving DecidableEq

structure PeerState where
  knownPeers : List Id
  clusterSize : Nat
  deriving DecidableEq

/-- Entries with their data decoded. A peer state that `decodePeerState` rejects is `none`. -/
inductive Entry
  | normal (data : String)
  | oldSnapshot (data : String)
  | peerState (ps : Option PeerState)
  | addPeer (peer : Id)
  | removePeer (peer : Id)
  | leaderTransfer (peer : Id)
  | snapshot (data : String)
  | catchup
  deriving DecidableEq

def Entry.changesMembership : Entry → Bool
  | .addPeer _ => true
  | .removePeer _ => true
  | _ => false

structure AppendEntry where
  leader : Id
  term : Nat
  commit : Nat
  pterm : Nat
  pindex : Nat
  entries : List Entry
  lterm : Nat
  deriving DecidableEq

/-- `reply` is the catch-up inbox the response asks the leader to stream to. -/
structure AppendEntryResponse where
  term : Nat
  index : Nat
  peer : Id
  success : Bool
  reply : Option Nat
  deriving DecidableEq

structure VoteRequest where
  term : Nat
  lastTerm : Nat
  lastIndex : Nat
  candidate : Id
  deriving DecidableEq

structure VoteResponse where
  term : Nat
  peer : Id
  granted : Bool
  empty : Bool
  deriving DecidableEq

/-- What a node sends. Vote requests and live append entries go to the whole group, the rest
to one node's inbox; `catchup` also names which of that node's catch-up inboxes. -/
inductive Rpc
  | voteRequest (vr : VoteRequest)
  | voteResponse (dest : Id) (vresp : VoteResponse)
  | append (ae : AppendEntry)
  | catchup (dest : Id) (inbox : Nat) (ae : AppendEntry)
  | response (dest : Id) (ar : AppendEntryResponse)
  deriving DecidableEq

/-- The subscription an append entry came in on; a replayed one has none. -/
inductive Sub
  | live
  | inbox (k : Nat)
  deriving DecidableEq

/-- The write-ahead log: `base` entries were compacted away, `entries` are stored after them. -/
structure Wal where
  base : Nat
  entries : List AppendEntry
  deriving DecidableEq

inductive LoadErr
  | eof
  | notFound
  deriving DecidableEq

namespace Wal

def last (w : Wal) : Nat := w.base + w.entries.length

def load (w : Wal) (index : Nat) : Except LoadErr AppendEntry :=
  if index ≤ w.base then .error .notFound
  else match w.entries[index - w.base - 1]? with
    | some ae => .ok ae
    | none => .error .eof

def store (w : Wal) (ae : AppendEntry) : Wal := { w with entries := w.entries ++ [ae] }

def truncate (w : Wal) (index : Nat) : Wal :=
  if index = 0 then ⟨0, []⟩ else { w with entries := w.entries.take (index - w.base) }

def compact (w : Wal) (last : Nat) : Wal :=
  if last < w.base then w else ⟨last, w.entries.drop (last - w.base)⟩

end Wal

structure Snapshot where
  lastTerm : Nat
  lastIndex : Nat
  peerstate : PeerState
  data : String
  deriving DecidableEq

structure TermVote where
  term : Nat
  vote : Option Id
  deriving DecidableEq

inductive WriteErr
  | storeClosed
  | storeEOF
  | storeMsgNotFound
  | noPending
  | partialCache
  | notExist
  | permission
  | outOfSpace
  | other
  deriving DecidableEq

def WriteErr.critical : WriteErr → Bool
  | .permission => true
  | .outOfSpace => true
  | .other => true
  | _ => false

/-- The term-and-vote file, and how the coming writes of it will end: an error leaves the old
content. After the listed outcomes writes succeed. -/
structure Disk where
  file : Option TermVote
  outcomes : List (Option WriteErr)
  deriving DecidableEq

def Disk.write (d : Disk) (tv : TermVote) : Disk × Option WriteErr :=
  match d.outcomes with
  | [] => ({ d with file := some tv }, none)
  | none :: rest => (⟨some tv, rest⟩, none)
  | some err :: rest => (⟨d.file, rest⟩, some err)

structure Catchup where
  sub : Nat
  cterm : Nat
  cindex : Nat
  pindex : Nat
  signal : Bool
  deriving DecidableEq

/-- A `runCatchup` goroutine serving `peer`: what it read when it started, and where it is. -/
structure Progress where
  peer : Id
  inbox : Nat
  next : Nat
  started : Option (Nat × Nat)
  deriving DecidableEq

/-- Where the node's `run` goroutine is. `campaign` is the start of `runAsCandidate`; the two
lists are the local vote maps of that call. -/
inductive Loop
  | run
  | follower
  | campaign
  | candidate (votes emptyVotes : List Id)
  | leader
  deriving DecidableEq

structure CommittedEntry where
  index : Nat
  entries : List Entry
  deriving DecidableEq

structure Node where
  id : Id
  state : RaftState
  loop : Loop
  term : Nat
  vote : Option Id
  disk : Disk
  wtv : Option TermVote
  werr : Option WriteErr
  leader : Option Id
  peers : List (Id × Bool)
  csz : Nat
  qn : Nat
  wal : Wal
  snap : Option Snapshot
  pterm : Nat
  pindex : Nat
  commit : Nat
  processed : Nat
  applied : Nat
  papplied : Nat
  membChangeIndex : Nat
  acks : List (Nat × Id)
  pae : List (Nat × AppendEntry)
  catchup : Option Catchup
  inboxes : Nat
  progress : List Progress
  votes : List VoteResponse
  apply : List (Option CommittedEntry)
  paused : Bool
  hcommit : Nat
  observer : Bool
  initializing : Bool
  scaleUp : Bool
  quorumPaused : Bool

end LinearNats.Raft
