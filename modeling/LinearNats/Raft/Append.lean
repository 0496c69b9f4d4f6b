import LinearNats.Raft.Ops

/-! `processAppendEntry`, cut at its early returns. Each stage either returns from the function
(`error`, with the node and what was sent) or hands the node to the next one. -/
namespace LinearNats.Raft.Node

/-- An append entry as `processAppendEntry` gets it: the subscription it came in on (none in a
replay), whose inbox its reply subject is, and whether more than two seconds have passed since
the catch-up was last active. -/
structure Incoming where
  ae : AppendEntry
  sub : Option Sub
  reply : Id
  elapsed : Bool
  deriving DecidableEq

namespace Incoming

def lterm (inc : Incoming) : Nat := if inc.ae.lterm ≠ 0 then inc.ae.lterm else inc.ae.term

def isNew (inc : Incoming) : Bool := inc.sub = some .live

end Incoming

abbrev Stage := Except (Node × List Rpc) Node

/-- A failure response without a catch-up inbox carries the node's term. -/
def rejects (n : Node) (reply : Id) : Rpc := .response reply ⟨n.term, n.pindex, n.id, false, none⟩

/-- A failure response that asks for a catch-up carries the node's last entry. -/
def asksCatchup (n : Node) (reply : Id) : Rpc :=
  .response reply ⟨n.pterm, n.pindex, n.id, false, n.catchup.map (·.sub)⟩

def accepts (n : Node) (reply : Id) : Rpc := .response reply ⟨n.pterm, n.pindex, n.id, true, none⟩

def raiseTerm (n : Node) (term : Nat) : Node := { n with term := term, vote := none }

def checkLeader (n : Node) (inc : Incoming) : Stage :=
  if n.state = .leader then
    if n.term ≤ inc.lterm then
      let n := if n.term < inc.lterm then (n.raiseTerm inc.lterm).writeTermVote else n
      .ok (n.stepdownLocked (some inc.ae.leader))
    else .error (n, [n.rejects inc.reply])
  else .ok n

def checkCandidate (n : Node) (inc : Incoming) : Stage :=
  if n.state = .candidate ∧ n.term ≤ inc.lterm then
    let n := if n.term < inc.lterm then (n.raiseTerm inc.lterm).writeTermVote else n
    .ok (n.stepdownLocked (some inc.ae.leader))
  else .ok n

def onCatchupSub (n : Node) (inc : Incoming) : Bool :=
  match n.catchup with
  | some c => inc.sub = some (.inbox c.sub)
  | none => false

/-- Old catch-up subscriptions, and then the term of the sender. -/
def checkTerm (n : Node) (inc : Incoming) : Stage :=
  if ¬ inc.isNew ∧ inc.sub ≠ none ∧ (inc.ae.lterm = 0 ∨ inc.ae.pindex < n.pindex)
      ∧ ¬ n.onCatchupSub inc then .error (n, [])
  else if n.term < inc.lterm then
    let n := n.raiseTerm inc.lterm
    let n := if inc.isNew then n.writeTermVote else n
    .ok (if n.state ≠ .follower then n.stepdownLocked (some inc.ae.leader) else n)
  else if inc.lterm < n.term ∧ inc.sub ≠ none ∧ (inc.isNew ∨ inc.ae.lterm ≠ 0) then
    if inc.isNew then .error (n, [n.rejects inc.reply]) else .error (n, [])
  else .ok n

def catchupStalled (n : Node) (elapsed : Bool) : Node × Bool :=
  match n.catchup with
  | none => (n, false)
  | some c =>
    if c.pindex = n.pindex then (n, elapsed)
    else ({ n with catchup := some { c with pindex := n.pindex } }, false)

def checkCatchup (n : Node) (inc : Incoming) : Stage :=
  match n.catchup with
  | none => .ok n
  | some c =>
    if c.cterm ≤ n.pterm ∧ c.cindex ≤ n.pindex then .ok n.cancelCatchup
    else if inc.isNew then
      match n.catchupStalled inc.elapsed with
      | (n, true) =>
        let n := n.createCatchup inc.ae
        .error (n, [n.asksCatchup inc.reply])
      | (n, false) => .error (n, [])
    else .ok n

def trackLeader (n : Node) (inc : Incoming) : Node :=
  if inc.isNew ∧ n.leader ≠ some inc.ae.leader ∧ n.state = .follower then
    { n with leader := some inc.ae.leader }.writeTermVote
  else n

def checkOverrun (n : Node) (inc : Incoming) : Stage :=
  let applied := max n.applied n.papplied
  let commit := max n.commit n.papplied
  if inc.sub ≠ none ∧ (applied < commit ∨ n.quorumPaused) then
    let diff := commit - applied
    if n.quorumPaused then
      if paeWarnThreshold < diff then .error (n.cancelCatchup, [])
      else .ok { n with quorumPaused := false }
    else if pauseQuorumThreshold < diff then
      .error ({ n with quorumPaused := true }.cancelCatchup, [])
    else .ok n
  else .ok n

def settle (n : Node) (success : Bool) : Node × List Rpc :=
  (if success then n else n.cancelCatchup, [])

def checkBelow (n : Node) (inc : Incoming) : Stage :=
  let ae := inc.ae
  if ae.pindex < n.commit then .error (n.settle true)
  else match n.loadEntry ae.pindex with
    | .error _ =>
      if ae.pterm = n.pterm ∧ inc.isNew then .error (n.settle true)
      else if ae.pindex = n.pindex then .error ((n.truncateWAL ae.pterm ae.pindex).settle false)
      else match n.snap with
        | some snap =>
          if snap.lastIndex = ae.pindex ∧ snap.lastTerm = ae.pterm then
            .ok (n.truncateWAL snap.lastTerm snap.lastIndex)
          else .error (n.resetWAL.settle false)
        | none => .error (n.resetWAL.settle false)
    | .ok eae =>
      if eae.term = ae.pterm then .ok (n.truncateWAL ae.pterm ae.pindex)
      else if eae.pindex < n.commit then .error (n.settle true)
      else .error ((n.truncateWAL eae.pterm eae.pindex).settle false)

def resetInitializing (n : Node) : Node :=
  { n with
    initializing := false
    scaleUp := false
    observer := if n.scaleUp then false else n.observer }

/-- While catching up, an entry past our log has to be the leader's snapshot and peer state. -/
def installLeaderSnapshot (n : Node) (ae : AppendEntry) : Node :=
  match ae.entries with
  | [.snapshot data, .peerState (some ps)] =>
    let hadPreviousSnapshot := n.snap.isSome
    let n := n.processPeerState ps
    let n := { n with pindex := ae.pindex, pterm := ae.pterm, commit := ae.pindex }
    let n := n.installSnapshot ⟨n.pterm, n.pindex, n.currentPeerState, data⟩
    let n := n.resetInitializing
    let n := if hadPreviousSnapshot then n else n.sendCatchupSignal
    let n := { n with apply := n.apply ++ [some ⟨n.commit, [.snapshot data]⟩] }
    if hadPreviousSnapshot then n.sendCatchupSignal else n
  | _ => n.cancelCatchup

def checkPrevious (n : Node) (inc : Incoming) : Stage :=
  let ae := inc.ae
  if ae.pterm = n.pterm ∧ ae.pindex = n.pindex then .ok n
  else if ae.pindex ≤ n.pindex then n.checkBelow inc
  else if n.catchup.isSome then .error (n.installLeaderSnapshot ae, [])
  else
    let n := n.createCatchup ae
    .error (n, [n.asksCatchup inc.reply])

def noteEntry (n : Node) : Entry → Node
  | .addPeer peer =>
    { n with
      membChangeIndex := n.pindex
      peers :=
        if peer.length = idLen ∧ (Table.get n.peers peer).isNone then
          Table.set n.peers peer false
        else n.peers }
  | .removePeer _ => { n with membChangeIndex := n.pindex }
  | _ => n

def followCommit (n : Node) (commit : Nat) : Node :=
  if n.commit < commit then
    let n := n.sendCatchupSignal
    if n.paused then { n with hcommit := commit } else (n.applyThrough commit).1
  else n

def storeEntry (n : Node) (inc : Incoming) : Node × Bool :=
  if shouldStore inc.ae then
    if inc.sub = none then ({ n with pterm := inc.ae.term, pindex := inc.ae.pindex + 1 }, true)
    else match n.storeToWAL inc.ae with
      | (n, true) => ((n.cachePendingEntry inc.ae).resetInitializing, true)
      | (n, false) => (n, false)
  else (n, true)

/-- From the label CONTINUE on. -/
def acceptEntry (n : Node) (inc : Incoming) : Node × List Rpc :=
  match n.storeEntry inc with
  | (n, true) =>
    let n := (inc.ae.entries.foldl noteEntry n).followCommit inc.ae.commit
    (n, if inc.isNew then [n.accepts inc.reply] else [])
  | (n, false) => (n, [])

/-- Everything up to the label CONTINUE. -/
def checkEntry (n : Node) (inc : Incoming) : Stage := do
  let n ← n.checkLeader inc
  let n ← n.checkCandidate inc
  let n ← n.checkTerm inc
  let n ← n.checkCatchup inc
  let n ← (n.trackLeader inc).checkOverrun inc
  n.checkPrevious inc

def processAppendEntry (n : Node) (inc : Incoming) : Node × List Rpc :=
  if n.state = .closed ∨ n.werr.isSome then (n, [])
  else match n.checkEntry inc with
    | .error returned => returned
    | .ok n => n.acceptEntry inc

end LinearNats.Raft.Node
