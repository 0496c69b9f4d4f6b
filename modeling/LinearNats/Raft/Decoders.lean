import LinearNats.Raft.AppendCodec
import LinearNats.Raft.Node

/-! The decoders of peer states, append entry responses and votes, with the handlers that call
them, on any bytes. A slice expression outside the capacity and a field of a nil pointer stop the
server; the model says where. -/
namespace LinearNats.Raft.Wire
open LittleEndian List

inductive Fault where
  | outOfRange
  | nilDereference
  deriving DecidableEq

/-- A slice, with the bytes behind it up to its capacity. -/
structure Buf where
  bytes : Bytes
  spare : Bytes

namespace Buf

/-- `b[i:j]`, which is checked against the capacity and not the length. -/
def reslice (b : Buf) (i j : Nat) : Except Fault Buf :=
  if i ≤ j ∧ j ≤ (b.bytes ++ b.spare).length then
    .ok ⟨slice (b.bytes ++ b.spare) i j, (b.bytes ++ b.spare).drop j⟩
  else .error .outOfRange

def from_ (b : Buf) (i : Nat) : Except Fault Buf := b.reslice i b.bytes.length

def index (b : Buf) (i : Nat) : Except Fault UInt8 :=
  if i < b.bytes.length then .ok (b.bytes.getD i 0) else .error .outOfRange

def uint (width : Nat) (b : Buf) : Except Fault Nat :=
  if width ≤ b.bytes.length then .ok (getUint (b.bytes.take width)) else .error .outOfRange

def uintFrom (width : Nat) (b : Buf) (i : Nat) : Except Fault Nat := b.from_ i >>= uint width

variable {b : Buf} {i : Nat}

theorem reslice_inside {j : Nat} (order : i ≤ j) (inside : j ≤ b.bytes.length) :
    b.reslice i j = .ok ⟨slice b.bytes i j, b.bytes.drop j ++ b.spare⟩ := by
  have total : j ≤ (b.bytes ++ b.spare).length := by
    rw [length_append]
    omega
  rw [reslice, if_pos ⟨order, total⟩, slice_append_left inside, drop_append_of_le_length inside]

theorem from_inside (inside : i ≤ b.bytes.length) : b.from_ i = .ok ⟨b.bytes.drop i, b.spare⟩ := by
  rw [from_, reslice_inside inside (le_refl _), slice, take_length, drop_length, nil_append]

theorem from_outside (outside : b.bytes.length < i) : b.from_ i = .error .outOfRange := by
  rw [from_, reslice, if_neg (by omega)]

theorem index_inside (inside : i < b.bytes.length) :
    b.index i = .ok (b.bytes.getD i 0) := if_pos inside

theorem uintFrom_inside {width : Nat} (inside : i + width ≤ b.bytes.length) :
    b.uintFrom width i = .ok (getUint (slice b.bytes i (i + width))) := by
  have enough : width ≤ (b.bytes.drop i).length := by
    rw [length_drop]
    omega
  rw [uintFrom, from_inside (by omega), slice, drop_take, Nat.add_sub_cancel_left]
  exact if_pos enough

end Buf

def Returns {α : Type} (result : Except Fault α) : Prop := ∃ value, result = .ok value

variable {α : Type} {peers : List Bytes}

theorem returns_ok (value : α) : Returns (.ok value : Except Fault α) := ⟨value, rfl⟩

theorem not_returns_error (fault : Fault) : ¬ Returns (.error fault : Except Fault α) := by
  rintro ⟨value, same⟩
  cases same

theorem bind_ok {β : Type} (a : α) (f : α → Except Fault β) : (Except.ok a >>= f) = f a := rfl

/-! ### Peer states -/

inductive PeerStateError where
  | errCorruptPeers
  deriving DecidableEq

structure PeerState where
  knownPeers : List Bytes
  clusterSize : Int
  domainExt : UInt16
  deriving DecidableEq

def peerStateBufSize (ps : PeerState) : Nat := 4 + 4 + idLen * ps.knownPeers.length + 2

def copyAt (buf : Bytes) (wi : Nat) (bytes : Bytes) : Bytes :=
  buf.take wi ++ (bytes.take (buf.length - wi) ++ buf.drop (wi + bytes.length))

def copyPeer (at_ : Bytes × Nat) (peer : Bytes) : Bytes × Nat :=
  (copyAt at_.1 at_.2 peer, at_.2 + idLen)

def encodePeerState (ps : PeerState) : Bytes :=
  let buf := List.replicate (peerStateBufSize ps) 0
  let buf := copyAt buf 0 (putUint 4 (ps.clusterSize % 2 ^ 32).toNat)
  let buf := copyAt buf 4 (putUint 4 ps.knownPeers.length)
  let (buf, wi) := ps.knownPeers.foldl copyPeer (buf, 8)
  copyAt buf wi (putUint 2 ps.domainExt.toNat)

def readPeers (buf : Buf) : Nat → Nat → Except Fault (List Bytes × Nat)
  | 0, ri => .ok ([], ri)
  | n + 1, ri =>
    if ri < buf.bytes.length then do
      let peer ← buf.reslice ri (ri + idLen)
      let (peers, stop) ← readPeers buf n (ri + idLen)
      return (peer.bytes :: peers, stop)
    else .ok ([], ri)

def decodePeerState (buf : Buf) : Except Fault (Except PeerStateError PeerState) :=
  if buf.bytes.length < 8 then .ok (.error .errCorruptPeers)
  else do
    let clusterSize ← buf.uintFrom 4 0
    let expectedPeers ← buf.uintFrom 4 4
    let buf ← buf.from_ 8
    let (knownPeers, ri) ← readPeers buf expectedPeers 0
    if knownPeers.length ≠ expectedPeers then return .error .errCorruptPeers
    let rest ← buf.from_ ri
    if 2 ≤ rest.bytes.length then
      let domainExt ← rest.uint 2
      return .ok ⟨knownPeers, clusterSize, UInt16.ofNat domainExt⟩
    return .ok ⟨knownPeers, clusterSize, 0⟩

/-! ### Append entry responses and votes -/

def appendEntryResponseLen : Nat := 24 + 1
def voteRequestLen : Nat := 24 + idLen
def voteResponseLen : Nat := 8 + 8 + 1

structure AppendEntryResponse where
  term : UInt64
  index : UInt64
  peer : Bytes
  reply : Bytes
  success : Bool
  deriving DecidableEq

/-- `ar` is what the pool hands out, with the reply of its last use. The table of interned peer
names is left out: it gives back an equal name. -/
def decodeAppendEntryResponse (ar : AppendEntryResponse) (msg : Buf) :
    Except Fault (Option AppendEntryResponse) :=
  if msg.bytes.length ≠ appendEntryResponseLen then .ok none
  else do
    let term ← msg.uintFrom 8 0
    let index ← msg.uintFrom 8 8
    let peer ← msg.reslice 16 (16 + idLen)
    let success ← msg.index 24
    return some
      { ar with
        term := UInt64.ofNat term
        index := UInt64.ofNat index
        peer := peer.bytes
        success := success == 1 }

/-- The queue `resp` afterwards. The response is not checked for nil. -/
def handleAppendEntryResponse (resp : List AppendEntryResponse) (ar : AppendEntryResponse)
    (reply : Bytes) (msg : Buf) : Except Fault (List AppendEntryResponse) := do
  match ← decodeAppendEntryResponse ar msg with
  | none => .error .nilDereference
  | some ar => return resp ++ [{ ar with reply := reply }]

structure VoteRequest where
  term : UInt64
  lastTerm : UInt64
  lastIndex : UInt64
  candidate : Bytes
  reply : Bytes
  deriving DecidableEq

def decodeVoteRequest (msg : Buf) (reply : Bytes) : Except Fault (Option VoteRequest) :=
  if msg.bytes.length ≠ voteRequestLen then .ok none
  else do
    let term ← msg.uintFrom 8 0
    let lastTerm ← msg.uintFrom 8 8
    let lastIndex ← msg.uintFrom 8 16
    let candidate ← msg.reslice 24 (24 + idLen)
    return some ⟨UInt64.ofNat term, UInt64.ofNat lastTerm, UInt64.ofNat lastIndex, candidate.bytes,
      reply⟩

def handleVoteRequest (reqs : List VoteRequest) (reply : Bytes) (msg : Buf) :
    Except Fault (List VoteRequest) := do
  match ← decodeVoteRequest msg reply with
  | none => return reqs
  | some vr => return reqs ++ [vr]

structure VoteResponse where
  term : UInt64
  peer : Bytes
  granted : Bool
  empty : Bool
  deriving DecidableEq

def decodeVoteResponse (msg : Buf) : Except Fault (Option VoteResponse) :=
  if msg.bytes.length ≠ voteResponseLen then .ok none
  else do
    let term ← msg.uintFrom 8 0
    let peer ← msg.reslice 8 16
    let granted ← msg.index 16
    let empty ← msg.index 16
    return some ⟨UInt64.ofNat term, peer.bytes, granted &&& 1 != 0, empty &&& 2 != 0⟩

def handleVoteResponse (state : RaftState) (votes : List VoteResponse) (msg : Buf) :
    Except Fault (List VoteResponse) := do
  match ← decodeVoteResponse msg with
  | none => return votes
  | some vr =>
    if state ≠ .candidate ∧ state ≠ .leader then return votes
    else return votes ++ [vr]

def responseOf (ar : AppendEntryResponse) (msg : Bytes) : AppendEntryResponse :=
  { ar with
    term := UInt64.ofNat (getUint (slice msg 0 8))
    index := UInt64.ofNat (getUint (slice msg 8 16))
    peer := slice msg 16 24
    success := msg.getD 24 0 == 1 }

theorem decodeAppendEntryResponse_eq (ar : AppendEntryResponse) (msg : Buf) :
    decodeAppendEntryResponse ar msg =
      .ok (if msg.bytes.length = appendEntryResponseLen then some (responseOf ar msg.bytes)
        else none) := by
  rw [decodeAppendEntryResponse]
  by_cases len : msg.bytes.length = appendEntryResponseLen
  · have bound : msg.bytes.length = 25 := len
    rw [if_neg (fun differs => differs len), if_pos len, Buf.uintFrom_inside (by omega),
      Buf.uintFrom_inside (by omega), Buf.reslice_inside (by omega) (by rw [bound]; decide),
      Buf.index_inside (by omega)]
    rfl
  · rw [if_pos len, if_neg len]

theorem handleAppendEntryResponse_returns_iff (resp : List AppendEntryResponse)
    (ar : AppendEntryResponse) (reply : Bytes) (msg : Buf) :
    Returns (handleAppendEntryResponse resp ar reply msg) ↔
      msg.bytes.length = appendEntryResponseLen := by
  rw [handleAppendEntryResponse, decodeAppendEntryResponse_eq, bind_ok]
  by_cases len : msg.bytes.length = appendEntryResponseLen
  · rw [if_pos len]
    exact iff_of_true (returns_ok _) len
  · rw [if_neg len]
    exact iff_of_false (not_returns_error _) len

theorem decodeVoteRequest_returns (msg : Buf) (reply : Bytes) :
    Returns (decodeVoteRequest msg reply) := by
  rw [decodeVoteRequest]
  by_cases len : msg.bytes.length = voteRequestLen
  · have bound : msg.bytes.length = 32 := len
    rw [if_neg (fun differs => differs len), Buf.uintFrom_inside (by omega),
      Buf.uintFrom_inside (by omega), Buf.uintFrom_inside (by omega),
      Buf.reslice_inside (by omega) (by rw [bound]; decide)]
    exact returns_ok _
  · rw [if_pos len]
    exact returns_ok _

theorem handleVoteRequest_returns (reqs : List VoteRequest) (reply : Bytes) (msg : Buf) :
    Returns (handleVoteRequest reqs reply msg) := by
  obtain ⟨decoded, same⟩ := decodeVoteRequest_returns msg reply
  rw [handleVoteRequest, same, bind_ok]
  cases decoded <;> exact returns_ok _

theorem decodeVoteResponse_returns (msg : Buf) : Returns (decodeVoteResponse msg) := by
  rw [decodeVoteResponse]
  by_cases len : msg.bytes.length = voteResponseLen
  · have bound : msg.bytes.length = 17 := len
    rw [if_neg (fun differs => differs len), Buf.uintFrom_inside (by omega),
      Buf.reslice_inside (by omega) (by omega), Buf.index_inside (by omega)]
    exact returns_ok _
  · rw [if_pos len]
    exact returns_ok _

theorem handleVoteResponse_returns (state : RaftState) (votes : List VoteResponse) (msg : Buf) :
    Returns (handleVoteResponse state votes msg) := by
  obtain ⟨decoded, same⟩ := decodeVoteResponse_returns msg
  rw [handleVoteResponse, same, bind_ok]
  cases decoded with
  | none => exact returns_ok _
  | some vr =>
    by_cases old : state ≠ .candidate ∧ state ≠ .leader
    · exact ⟨votes, if_pos old⟩
    · exact ⟨votes ++ [vr], if_neg old⟩

/-! ### Reading peers -/

/-- The last peer is cut short, and the bytes behind the slice do not complete it. -/
theorem readPeers_fault {buf : Buf} {n ri : Nat} (cut : (buf.bytes.length - ri) % 8 ≠ 0)
    (reached : (buf.bytes.length - ri) / 8 < n)
    (few : buf.spare.length < 8 - (buf.bytes.length - ri) % 8) :
    readPeers buf n ri = .error .outOfRange := by
  induction n generalizing ri with
  | zero => omega
  | succ n ih =>
    rw [readPeers, if_pos (by omega)]
    by_cases whole : ri + 8 ≤ buf.bytes.length
    · have tail := @ih (ri + idLen) (by rw [idLen]; omega) (by rw [idLen]; omega)
        (by rw [idLen]; omega)
      rw [Buf.reslice_inside (by omega) (by rw [idLen]; exact whole), bind_ok, tail]
      rfl
    have outside : ¬ (ri ≤ ri + idLen ∧ ri + idLen ≤ (buf.bytes ++ buf.spare).length) := by
      rw [length_append, idLen]
      omega
    rw [Buf.reslice, if_neg outside]
    rfl

/-- Otherwise the loop ends, one peer past the end of the slice at most. -/
theorem readPeers_ok {buf : Buf} {n ri : Nat}
    (safe : (buf.bytes.length - ri) % 8 = 0 ∨ n ≤ (buf.bytes.length - ri) / 8 ∨
      8 - (buf.bytes.length - ri) % 8 ≤ buf.spare.length) :
    ∃ peers, readPeers buf n ri = .ok (peers, ri + 8 * peers.length) ∧
      peers.length = min n ((buf.bytes.length - ri + 7) / 8) := by
  induction n generalizing ri with
  | zero => exact ⟨[], rfl, by simp⟩
  | succ n ih =>
    rw [readPeers]
    by_cases more : ri < buf.bytes.length
    · have inside : ri ≤ ri + idLen ∧ ri + idLen ≤ (buf.bytes ++ buf.spare).length := by
        rw [length_append, idLen]
        omega
      obtain ⟨peers, read, count⟩ := @ih (ri + idLen) (by rw [idLen]; omega)
      rw [idLen] at count
      rw [if_pos more, Buf.reslice, if_pos inside, bind_ok, read]
      refine ⟨_, congrArg Except.ok (Prod.ext rfl ?_), ?_⟩
      · rw [idLen, length_cons]
        omega
      · rw [length_cons, count]
        omega
    · rw [if_neg more]
      exact ⟨[], rfl, by rw [length_nil]; omega⟩

theorem readPeers_flatten (ids : ∀ peer ∈ peers, peer.length = idLen) (before after spare : Bytes) :
    readPeers ⟨before ++ (peers.flatten ++ after), spare⟩ peers.length before.length =
      .ok (peers, before.length + 8 * peers.length) := by
  induction peers generalizing before with
  | nil => rfl
  | cons peer peers ih =>
    have len : peer.length = 8 := ids peer mem_cons_self
    have tail := ih (fun other mem => ids other (mem_cons_of_mem _ mem)) (before ++ peer)
    have shape : before ++ ((peer :: peers).flatten ++ after) =
        before ++ (peer ++ (peers.flatten ++ after)) := by
      rw [flatten_cons, append_assoc]
    have shift : before ++ peer ++ (peers.flatten ++ after) =
        before ++ (peer ++ (peers.flatten ++ after)) := append_assoc _ _ _
    have next : before.length + idLen = (before ++ peer).length := by
      rw [length_append, len, idLen]
    have room : before.length + 8 ≤ (before ++ (peer ++ (peers.flatten ++ after))).length := by
      simp only [length_append, len]
      omega
    have more : before.length < (before ++ (peer ++ (peers.flatten ++ after))).length := by omega
    have first : slice (before ++ (peer ++ (peers.flatten ++ after))) before.length
        (before.length + idLen) = peer := slice_middle rfl (by rw [len, idLen])
    rw [shift, ← next] at tail
    rw [shape, length_cons, readPeers, if_pos more,
      Buf.reslice_inside (Nat.le_add_right _ _) room, bind_ok, first, tail, bind_ok]
    refine congrArg Except.ok (Prod.ext rfl ?_)
    rw [idLen]
    omega

/-! ### Writing peers -/

theorem flatten_length (ids : ∀ peer ∈ peers, peer.length = idLen) :
    peers.flatten.length = 8 * peers.length := by
  have lengths : peers.map List.length = peers.map (fun _ => 8) := map_congr_left ids
  rw [length_flatten, lengths, map_const', sum_replicate_nat, mul_comm]

theorem copyAt_room {done room bytes : Bytes} {wi : Nat} (start : done.length = wi)
    (fits : bytes.length ≤ room.length) :
    copyAt (done ++ room) wi bytes = done ++ (bytes ++ room.drop bytes.length) := by
  subst start
  have all : bytes.take ((done ++ room).length - done.length) = bytes := by
    rw [length_append, Nat.add_sub_cancel_left, take_of_length_le fits]
  rw [copyAt, all, take_left, drop_append, Nat.add_sub_cancel_left,
    drop_eq_nil_of_le (Nat.le_add_right _ _), nil_append]

theorem copyPeers_room (ids : ∀ peer ∈ peers, peer.length = idLen) {done room : Bytes}
    (fits : 8 * peers.length ≤ room.length) :
    peers.foldl copyPeer (done ++ room, done.length) =
      (done ++ (peers.flatten ++ room.drop (8 * peers.length)),
        done.length + 8 * peers.length) := by
  induction peers generalizing done room with
  | nil => rfl
  | cons peer peers ih =>
    have len : peer.length = 8 := ids peer mem_cons_self
    rw [length_cons] at fits
    have step : copyPeer (done ++ room, done.length) peer =
        ((done ++ peer) ++ room.drop 8, (done ++ peer).length) := by
      rw [copyPeer, copyAt_room rfl (by omega), len, length_append, len, idLen, append_assoc]
    rw [foldl_cons, step,
      ih (fun other mem => ids other (mem_cons_of_mem _ mem)) (by rw [length_drop]; omega),
      flatten_cons, drop_drop, length_append, length_cons, len]
    refine Prod.ext ?_ ?_
    · simp only [append_assoc, Nat.mul_add, mul_one, add_comm]
    · show done.length + 8 + 8 * peers.length = done.length + 8 * (peers.length + 1)
      omega

theorem encodePeerState_eq {ps : PeerState} (ids : ∀ peer ∈ ps.knownPeers, peer.length = idLen) :
    encodePeerState ps =
      (putUint 4 (ps.clusterSize % 2 ^ 32).toNat ++ putUint 4 ps.knownPeers.length) ++
        (ps.knownPeers.flatten ++ putUint 2 ps.domainExt.toNat) := by
  obtain ⟨sized, size⟩ : ∃ sized, putUint 4 (ps.clusterSize % 2 ^ 32).toNat = sized ∧
      sized.length = 4 := ⟨_, rfl, putUint_length _ _⟩
  obtain ⟨counted, count⟩ : ∃ counted, putUint 4 ps.knownPeers.length = counted ∧
      counted.length = 4 := ⟨_, rfl, putUint_length _ _⟩
  obtain ⟨zeros, buf⟩ : ∃ zeros, List.replicate (peerStateBufSize ps) (0 : UInt8) = zeros ∧
      zeros.length = 10 + 8 * ps.knownPeers.length := by
    refine ⟨_, rfl, ?_⟩
    rw [length_replicate, peerStateBufSize, idLen]
    omega
  have ext : (putUint 2 ps.domainExt.toNat).length = 2 := putUint_length _ _
  have head : (sized ++ counted).length = 8 := by rw [length_append, size.2, count.2]
  have flat := flatten_length ids
  have none_ : zeros.drop (8 + 8 * ps.knownPeers.length + 2) = [] :=
    drop_eq_nil_of_le (by omega)
  have first : copyAt zeros 0 sized = sized ++ zeros.drop 4 := by
    rw [← size.2]
    exact @copyAt_room [] zeros sized 0 rfl (by omega)
  have second : copyAt (sized ++ zeros.drop 4) 4 counted = (sized ++ counted) ++ zeros.drop 8 := by
    rw [copyAt_room size.2 (by rw [length_drop]; omega), count.2, drop_drop, append_assoc]
  have third := @copyPeers_room _ ids (sized ++ counted) (zeros.drop 8)
    (by rw [length_drop]; omega)
  rw [head, drop_drop] at third
  have fourth := @copyAt_room (sized ++ counted ++ ps.knownPeers.flatten)
    (zeros.drop (8 + 8 * ps.knownPeers.length)) (putUint 2 ps.domainExt.toNat)
    (8 + 8 * ps.knownPeers.length) (by rw [length_append, head, flat])
    (by rw [length_drop]; omega)
  rw [ext, drop_drop, none_, append_nil] at fourth
  simp only [encodePeerState, size.1, count.1, buf.1, first, second, third]
  rw [← append_assoc, fourth, append_assoc]

/-! ### Peer states on any bytes -/

def announcedPeers (buf : Bytes) : Nat := getUint (slice buf 4 8)

/-- The announced peers reach into a last one that is cut short, and either the bytes behind the
slice do not complete it or it is the last one announced. -/
def CutPeer (buf : Buf) : Prop :=
  8 ≤ buf.bytes.length ∧ (buf.bytes.length - 8) % 8 ≠ 0 ∧
    (buf.bytes.length - 8) / 8 < announcedPeers buf.bytes ∧
    (buf.spare.length < 8 - (buf.bytes.length - 8) % 8 ∨
      announcedPeers buf.bytes = (buf.bytes.length - 8) / 8 + 1)

instance (buf : Buf) : Decidable (CutPeer buf) := inferInstanceAs (Decidable (_ ∧ _ ∧ _ ∧ _))

def finishPeerState (clusterSize expectedPeers : Nat) (buf : Buf) (read : List Bytes × Nat) :
    Except Fault (Except PeerStateError PeerState) := do
  if read.1.length ≠ expectedPeers then return .error .errCorruptPeers
  let rest ← buf.from_ read.2
  if 2 ≤ rest.bytes.length then
    let domainExt ← rest.uint 2
    return .ok ⟨read.1, clusterSize, UInt16.ofNat domainExt⟩
  return .ok ⟨read.1, clusterSize, 0⟩

theorem decodePeerState_eq {buf : Buf} (head : 8 ≤ buf.bytes.length) :
    decodePeerState buf =
      (readPeers ⟨buf.bytes.drop 8, buf.spare⟩ (announcedPeers buf.bytes) 0 >>=
        finishPeerState (getUint (slice buf.bytes 0 4)) (announcedPeers buf.bytes)
          ⟨buf.bytes.drop 8, buf.spare⟩) := by
  rw [decodePeerState, if_neg (by omega), Buf.uintFrom_inside (by omega),
    Buf.uintFrom_inside (by omega), Buf.from_inside head]
  rfl

theorem finishPeerState_returns_iff (clusterSize expectedPeers : Nat) (buf : Buf)
    (read : List Bytes × Nat) :
    Returns (finishPeerState clusterSize expectedPeers buf read) ↔
      read.1.length ≠ expectedPeers ∨ read.2 ≤ buf.bytes.length := by
  rw [finishPeerState]
  split
  next count => exact iff_of_true (returns_ok _) (.inl count)
  by_cases inside : read.2 ≤ buf.bytes.length
  · refine iff_of_true ?_ (.inr inside)
    rw [Buf.from_inside inside]
    show Returns (if 2 ≤ (buf.bytes.drop read.2).length then _ else _)
    split
    next enough =>
      rw [Buf.uint, if_pos enough]
      exact returns_ok _
    · exact returns_ok _
  · refine iff_of_false ?_ (by omega)
    rw [Buf.from_outside (by omega)]
    exact not_returns_error _

theorem decodePeerState_returns_iff (buf : Buf) :
    Returns (decodePeerState buf) ↔ ¬ CutPeer buf := by
  by_cases head : 8 ≤ buf.bytes.length
  · have rest : (buf.bytes.drop 8).length - 0 = buf.bytes.length - 8 := by
      rw [length_drop, Nat.sub_zero]
    rw [decodePeerState_eq head, CutPeer]
    by_cases fault : (buf.bytes.length - 8) % 8 ≠ 0 ∧
        (buf.bytes.length - 8) / 8 < announcedPeers buf.bytes ∧
        buf.spare.length < 8 - (buf.bytes.length - 8) % 8
    · rw [readPeers_fault (by rw [rest]; exact fault.1) (by rw [rest]; exact fault.2.1)
        (by rw [rest]; exact fault.2.2)]
      exact iff_of_false (not_returns_error _) (by omega)
    have safe : (buf.bytes.length - 8) % 8 = 0 ∨
        announcedPeers buf.bytes ≤ (buf.bytes.length - 8) / 8 ∨
        8 - (buf.bytes.length - 8) % 8 ≤ buf.spare.length := by omega
    rw [← rest] at safe
    obtain ⟨peers, read, count⟩ := @readPeers_ok ⟨buf.bytes.drop 8, buf.spare⟩
      (announcedPeers buf.bytes) 0 safe
    rw [rest] at count
    rw [read, bind_ok, finishPeerState_returns_iff]
    show peers.length ≠ announcedPeers buf.bytes ∨
      0 + 8 * peers.length ≤ (buf.bytes.drop 8).length ↔ _
    rw [length_drop, count]
    omega
  · rw [decodePeerState, if_pos (by omega)]
    exact iff_of_true (returns_ok _) (fun cut => head cut.1)

theorem finishPeerState_ext (clusterSize : Nat) (peers : List Bytes) (body spare : Bytes)
    (ext : UInt16) :
    finishPeerState clusterSize peers.length ⟨body ++ putUint 2 ext.toNat, spare⟩
      (peers, body.length) = .ok (.ok ⟨peers, clusterSize, ext⟩) := by
  have inside : body.length ≤ (body ++ putUint 2 ext.toNat).length := by
    rw [length_append]
    omega
  have same : UInt16.ofNat (getUint (putUint 2 ext.toNat)) = ext := by
    rw [getUint_putUint_of_lt ext.toNat_lt, UInt16.ofNat_toNat]
  have two : 2 ≤ (putUint 2 ext.toNat).length := by rw [putUint_length]
  have all : (putUint 2 ext.toNat).take 2 = putUint 2 ext.toNat :=
    take_of_length_le (by rw [putUint_length])
  rw [finishPeerState, if_neg (fun differs => differs rfl), Buf.from_inside inside, drop_left,
    bind_ok, if_pos two, Buf.uint, if_pos two, all, bind_ok, same]
  rfl

structure PeerState.Fits (ps : PeerState) : Prop where
  ids : ∀ peer ∈ ps.knownPeers, peer.length = idLen
  count : ps.knownPeers.length < 2 ^ 32
  size : 0 ≤ ps.clusterSize ∧ ps.clusterSize < 2 ^ 32

theorem decode_encodePeerState {ps : PeerState} (fits : ps.Fits) (spare : Bytes) :
    decodePeerState ⟨encodePeerState ps, spare⟩ = .ok (.ok ps) := by
  obtain ⟨nonneg, small⟩ := fits.size
  have natural : (ps.clusterSize % 2 ^ 32).toNat = ps.clusterSize.toNat := by
    rw [Int.emod_eq_of_lt nonneg small]
  have layout := encodePeerState_eq fits.ids
  rw [natural] at layout
  have head : (putUint 4 ps.clusterSize.toNat ++ putUint 4 ps.knownPeers.length).length = 8 := by
    rw [length_append, putUint_length, putUint_length]
  have sized : slice (encodePeerState ps) 0 4 = putUint 4 ps.clusterSize.toNat := by
    rw [layout, append_assoc, ← nil_append (putUint 4 ps.clusterSize.toNat ++ _)]
    exact slice_middle rfl (by rw [putUint_length])
  have counted : slice (encodePeerState ps) 4 8 = putUint 4 ps.knownPeers.length := by
    rw [layout, append_assoc]
    exact slice_middle (putUint_length _ _) (by rw [putUint_length])
  have announced : announcedPeers (encodePeerState ps) = ps.knownPeers.length := by
    rw [announcedPeers, counted, getUint_putUint_of_lt fits.count]
  have body : (encodePeerState ps).drop 8 =
      ps.knownPeers.flatten ++ putUint 2 ps.domainExt.toNat := by
    rw [layout, ← head, drop_left]
  have read := readPeers_flatten fits.ids [] (putUint 2 ps.domainExt.toNat) spare
  rw [← flatten_length fits.ids, length_nil, zero_add, nil_append] at read
  have long : 8 ≤ (encodePeerState ps).length := by
    rw [layout, length_append, head]
    omega
  rw [decodePeerState_eq long, announced, sized, body, getUint_putUint_of_lt (by omega), read,
    bind_ok, finishPeerState_ext, Int.toNat_of_nonneg nonneg]

/-- Which of the decoders return on which bytes, and that a peer state survives its encoding. -/
theorem raft_decoders_return_iff (buf : Buf) :
    (Returns (decodePeerState buf) ↔ ¬ CutPeer buf) ∧
      (∀ ar, Returns (decodeAppendEntryResponse ar buf)) ∧
      (∀ resp ar reply, Returns (handleAppendEntryResponse resp ar reply buf) ↔
        buf.bytes.length = appendEntryResponseLen) ∧
      (∀ reply reqs, Returns (decodeVoteRequest buf reply) ∧
        Returns (handleVoteRequest reqs reply buf)) ∧
      (∀ state votes, Returns (decodeVoteResponse buf) ∧
        Returns (handleVoteResponse state votes buf)) ∧
      ∀ (ps : PeerState) spare, ps.Fits →
        decodePeerState ⟨encodePeerState ps, spare⟩ = .ok (.ok ps) := by
  refine ⟨decodePeerState_returns_iff buf, ?_, ?_, ?_, ?_, ?_⟩
  · intro ar
    exact ⟨_, decodeAppendEntryResponse_eq ar buf⟩
  · intro resp ar reply
    exact handleAppendEntryResponse_returns_iff resp ar reply buf
  · intro reply reqs
    exact ⟨decodeVoteRequest_returns buf reply, handleVoteRequest_returns reqs reply buf⟩
  · intro state votes
    exact ⟨decodeVoteResponse_returns buf, handleVoteResponse_returns state votes buf⟩
  · intro ps spare fits
    exact decode_encodePeerState fits spare

def onePeer : PeerState := ⟨[[65, 66, 67, 68, 69, 70, 71, 72]], 3, 1⟩

/-- One known peer of three, written and read back, and a peer state with a byte too many. -/
theorem raft_decoders_return_one_peer :
    decodePeerState ⟨encodePeerState onePeer, []⟩ = .ok (.ok onePeer) ∧
      Returns (decodePeerState ⟨encodePeerState onePeer ++ [0], []⟩) :=
  have trailing := raft_decoders_return_iff ⟨encodePeerState onePeer ++ [0], []⟩
  ⟨trailing.2.2.2.2.2 onePeer [] ⟨by decide, by decide, by decide⟩, trailing.1.mpr (by decide)⟩

/-- One peer announced and four bytes of it: the decoder slices eight. An empty append entry
response: the handler writes to a nil pointer. -/
theorem raft_decoders_stop :
    decodePeerState ⟨[1, 0, 0, 0, 1, 0, 0, 0, 65, 66, 67, 68], []⟩ = .error .outOfRange ∧
      ∀ resp ar reply, handleAppendEntryResponse resp ar reply ⟨[], []⟩ = .error .nilDereference :=
  ⟨rfl, fun _ _ _ => rfl⟩

end LinearNats.Raft.Wire
