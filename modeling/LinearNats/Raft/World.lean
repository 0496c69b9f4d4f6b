import LinearNats.Run
import LinearNats.Raft.Step

/-! A group of nodes and its network. Every message ever sent stays in flight, so that it can be
delivered late, in any order, several times or never. -/
namespace LinearNats.Raft

structure Group where
  members : List Id
  nodup : members.Nodup

def Group.size (g : Group) : Nat := g.members.length

structure Config where
  observer : Bool
  initializing : Bool
  scaleUp : Bool

def Node.fresh (members : List Id) (config : Config) (id : Id) : Node :=
  { id := id, state := .follower, loop := .run, term := 0, vote := none, disk := ⟨none, []⟩
    wtv := none, werr := none, leader := none, peers := [], csz := 0, qn := 0
    wal := ⟨0, []⟩, snap := none, pterm := 0, pindex := 0, commit := 0, processed := 0
    applied := 0, papplied := 0, membChangeIndex := 0, acks := [], pae := [], catchup := none
    inboxes := 0, progress := [], votes := [], apply := [], paused := false, hcommit := 0
    observer := config.observer, initializing := config.initializing, scaleUp := config.scaleUp
    quorumPaused := false : Node }.processPeerState ⟨members, members.length⟩

/-- The node goes down somewhere in a step and starts again. The writes of its term-and-vote file
that the crash cuts off are those that `outcomes` lets fail; on disk are the first `kept` entries
of the write-ahead log, from before the step or from after it. -/
def Node.crash (n : Node) (input : Input) (outcomes : List (Option WriteErr)) (early : Bool)
    (kept : Nat) (recovering : Bool) : Node :=
  let m := ((n.withOutcomes outcomes).step input).1
  let saved := if early then n else m
  { m with
    disk := ⟨m.disk.file, []⟩
    wal := ⟨saved.wal.base, saved.wal.entries.take kept⟩
    snap := saved.snap }.restart recovering

inductive Event
  | act (i : Id) (input : Input)
  | crash (i : Id) (input : Input) (outcomes : List (Option WriteErr)) (early : Bool) (kept : Nat)
      (recovering : Bool)
  deriving DecidableEq

structure World where
  nodes : Id → Node
  net : List (Id × Rpc)

namespace World

def start (g : Group) (config : Id → Config) : World :=
  ⟨fun i => Node.fresh g.members (config i) i, []⟩

/-- The append entry has been sent to `i` on the subscription it comes in on. -/
def Delivers (w : World) (i : Id) (inc : Node.Incoming) : Prop :=
  inc.reply ≠ i ∧ match inc.sub with
    | some .live => (inc.reply, .append inc.ae) ∈ w.net
    | some (.inbox k) => (inc.reply, .catchup i k inc.ae) ∈ w.net
    | none => False

def Proposable : Entry → Prop
  | .normal _ => True
  | .leaderTransfer _ => True
  | _ => False

/-- Messages come from the network and never from the node itself; membership is fixed. -/
def Deliverable (w : World) (i : Id) : Input → Prop
  | .voteResponse vresp => vresp.peer ≠ i ∧ (vresp.peer, .voteResponse i vresp) ∈ w.net
  | .voteRequest vr reply => reply ≠ i ∧ (reply, .voteRequest vr) ∈ w.net
  | .appendEntries batch => ∀ inc ∈ batch, w.Delivers i inc
  | .responses batch _ => ∀ ar ∈ batch, ar.peer ≠ i ∧ (ar.peer, .response i ar) ∈ w.net
  | .propose entries => ∀ e ∈ entries, Proposable e
  | .membership _ => False
  | _ => True

instance (w : World) (i : Id) : (inc : Node.Incoming) → Decidable (w.Delivers i inc)
  | ⟨_, none, _, _⟩ => inferInstanceAs (Decidable (_ ∧ False))
  | ⟨_, some .live, _, _⟩ => inferInstanceAs (Decidable (_ ∧ _ ∈ w.net))
  | ⟨_, some (.inbox _), _, _⟩ => inferInstanceAs (Decidable (_ ∧ _ ∈ w.net))

instance (e : Entry) : Decidable (Proposable e) := by
  cases e
  all_goals first
    | exact instDecidableTrue
    | exact instDecidableFalse

instance (w : World) (i : Id) (input : Input) : Decidable (w.Deliverable i input) := by
  cases input
  all_goals first
    | exact instDecidableTrue
    | exact instDecidableFalse
    | exact instDecidableAnd
    | exact List.decidableBAll _ _

def setNode (w : World) (i : Id) (n : Node) : World :=
  { w with nodes := fun j => if j = i then n else w.nodes j }

def act (w : World) (i : Id) (input : Input) : World :=
  let (n, out) := (w.nodes i).step input
  { w.setNode i n with net := w.net ++ out.map (fun rpc => (i, rpc)) }

def step (g : Group) (w : World) (event : Id × Input) : World :=
  if event.1 ∈ g.members ∧ w.Deliverable event.1 event.2 then w.act event.1 event.2 else w

def faultyStep (g : Group) (w : World) : Event → World
  | .act i input => w.step g (i, input)
  | .crash i input outcomes early kept recovering =>
    if i ∈ g.members ∧ w.Deliverable i input then
      w.setNode i ((w.nodes i).crash input outcomes early kept recovering)
    else w

end World

def trio : Group := ⟨["peer-one", "peer-two", "peer-six"], by decide⟩

def newGroup (_ : Id) : Config := ⟨false, true, false⟩

end LinearNats.Raft
