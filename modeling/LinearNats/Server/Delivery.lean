import LinearNats.Server.LinearEvent

/-! How one server hands a published message to the subscriptions that match it: the plain
subscriptions in order, one member of each queue group, then the routes and leaf nodes collected
on the way. What is left out are the subjects, replies and statistics, none of which decides who
gets the message. -/
namespace LinearNats.Server

inductive Kind where
  | client | router | gateway | system | leaf | jetstream | account
  deriving DecidableEq, Repr

structure Leaf where
  isSpoke : Bool
  remoteCluster : String
  deriving DecidableEq, Repr

structure Client where
  id : Nat
  kind : Kind
  leaf : Option Leaf
  deriving DecidableEq, Repr

def Client.isSpokeLeafNode (c : Client) : Bool := c.kind == .leaf && c.leaf.any (·.isSpoke)
def Client.isHubLeafNode (c : Client) : Bool := c.kind == .leaf && c.leaf.any (fun l => !l.isSpoke)
def Client.remoteCluster (c : Client) : String := c.leaf.elim "" Leaf.remoteCluster

/-- A stream import; `atrc` is its allow-trace setting. -/
structure StreamImport where
  atrc : Bool
  deriving DecidableEq, Repr

structure Sub where
  sid : Nat
  client : Client
  queue : Option String
  origin : String
  im : Option StreamImport
  deriving DecidableEq, Repr

structure SublistResult where
  psubs : List Sub
  qsubs : List (List Sub)

/-- The receiving side of a connection: who it is, what the parser found in the protocol line,
and whether the message is traced (`some true` is trace only). -/
structure Conn where
  self : Client
  origin : String
  queues : Option (List String)
  isServiceReply : Bool
  trace : Option Bool

structure Flags where
  collectQueueNames : Bool
  ignoreEmptyQueueFilter : Bool
  allowSendFromRouteToRoute : Bool
  msgImportedFromService : Bool
  linearDelivery : Bool

/-- What the run does not decide: whether `deliverMsg` succeeds for a subscription, and the random
numbers drawn for a queue group. -/
structure World where
  deliverMsg : Sub → Bool
  start : Nat → Nat
  coin : Nat → Nat → Bool

structure RouteTarget where
  sub : Sub
  qs : List String

structure Out where
  didDeliver : Bool
  rts : List RouteTarget
  queues : List (Option String)
  handed : List Sub

def addSubToRouteTargets (sub : Sub) : List RouteTarget → List RouteTarget
  | [] => [⟨sub, sub.queue.toList⟩]
  | rt :: rts =>
    if rt.sub.client.id = sub.client.id then { rt with qs := rt.qs ++ sub.queue.toList } :: rts
    else rt :: addSubToRouteTargets sub rts

def Out.addTarget (s : Out) (sub : Sub) : Out := { s with rts := addSubToRouteTargets sub s.rts }

def Out.hand (s : Out) (sub : Sub) : Out :=
  { s with didDeliver := true, handed := s.handed ++ [sub] }

/-- A stream import without allow-trace is not served by a trace-only message. -/
def Conn.skips (c : Conn) (sub : Sub) : Bool :=
  c.trace == some true && sub.im.any (fun im => !im.atrc)

/-- The loop over the plain subscriptions; the flag says that a linear message was done with. -/
def plainLoop (c : Conn) (flags : Flags) (w : World) : List Sub → Out → Out × Bool
  | [], s => (s, false)
  | sub :: rest, s =>
    match sub.client.kind with
    | .router =>
      if (c.self.kind ≠ .router ∧ ¬ c.self.isSpokeLeafNode) ∨ flags.allowSendFromRouteToRoute then
        plainLoop c flags w rest (s.addTarget sub)
      else plainLoop c flags w rest s
    | .gateway => plainLoop c flags w rest s
    | .leaf =>
      if c.self.id ≠ sub.client.id ∧
          (c.self.kind ≠ .router ∨ sub.client.isHubLeafNode ∨ c.isServiceReply) then
        plainLoop c flags w rest (s.addTarget sub)
      else plainLoop c flags w rest s
    | _ =>
      if sub.im.isSome ∧ flags.msgImportedFromService then plainLoop c flags w rest s
      else if c.skips sub then plainLoop c flags w rest { s with didDeliver := true }
      else
        let s := if w.deliverMsg sub then s.hand sub else s
        if flags.linearDelivery ∧ s.didDeliver then ({ s with rts := [] }, true)
        else plainLoop c flags w rest s

def Conn.leafOrigin (c : Conn) : String :=
  match c.self.kind with
  | .router => c.origin
  | .leaf => c.self.remoteCluster
  | _ => ""

def preferLocal (leafOrigin : String) (coin : Nat → Bool) :
    Nat → List Sub → Option Sub → List Sub × Option Sub
  | _, [], rsub => ([], rsub)
  | i, sub :: rest, rsub =>
    let dst := sub.client.kind
    if dst = .leaf ∨ dst = .router then
      if dst = .leaf ∧ leafOrigin ≠ "" ∧ leafOrigin = sub.client.remoteCluster then
        preferLocal leafOrigin coin (i + 1) rest rsub
      else
        let rsub := match rsub with
          | none => some sub
          | some r =>
            if r.client.kind = .router ∧ dst = .leaf then some sub
            else if dst = .leaf ∧ coin i then some sub
            else some r
        preferLocal leafOrigin coin (i + 1) rest rsub
    else
      let (ql, rsub) := preferLocal leafOrigin coin (i + 1) rest rsub
      (sub :: ql, rsub)

inductive GroupEnd where
  | served (sub : Sub)
  | skipped (sub : Sub)
  | remote (rsub : Option Sub)
  deriving DecidableEq

def memberLoop (c : Conn) (flags : Flags) (w : World) : List Sub → Option Sub → GroupEnd
  | [], rsub => .remote rsub
  | sub :: rest, rsub =>
    let src := c.self.kind
    let dst := sub.client.kind
    if src = .leaf ∧ c.self.isSpokeLeafNode ∧ dst = .router then memberLoop c flags w rest rsub
    else if dst = .router ∨ dst = .leaf then
      if (src = .leaf ∨ src = .client) ∧ dst = .leaf then
        if src = .leaf ∧ c.leafOrigin ≠ "" ∧ c.leafOrigin = sub.client.remoteCluster then
          memberLoop c flags w rest rsub
        else memberLoop c flags w rest (rsub <|> some sub)
      else if sub.origin ≠ "" then
        if rsub.isNone ∧ (c.leafOrigin = "" ∨ c.leafOrigin ≠ sub.origin) then
          memberLoop c flags w rest (some sub)
        else memberLoop c flags w rest rsub
      else .remote (some sub)
    else if sub.im.isSome ∧ flags.msgImportedFromService then memberLoop c flags w rest rsub
    else if c.skips sub then .skipped sub
    else if w.deliverMsg sub then .served sub
    else memberLoop c flags w rest rsub

def groupEnd (c : Conn) (flags : Flags) (w : World) (i : Nat) (qsubs : List Sub) : GroupEnd :=
  let (qsubs, rsub) :=
    if c.self.kind = .router then preferLocal c.leafOrigin (w.coin i) 0 qsubs none
    else (qsubs, none)
  memberLoop c flags w (qsubs.rotate (w.start i % qsubs.length)) rsub

def Out.addQueue (s : Out) (flags : Flags) (sub : Sub) : Out :=
  if flags.collectQueueNames then { s with queues := s.queues ++ [sub.queue] } else s

@[simp] theorem Out.addQueue_handed (s : Out) (flags : Flags) (sub : Sub) :
    (s.addQueue flags sub).handed = s.handed := by
  unfold Out.addQueue
  split <;> rfl

@[simp] theorem Out.addQueue_didDeliver (s : Out) (flags : Flags) (sub : Sub) :
    (s.addQueue flags sub).didDeliver = s.didDeliver := by
  unfold Out.addQueue
  split <;> rfl

@[simp] theorem Out.addQueue_rts (s : Out) (flags : Flags) (sub : Sub) :
    (s.addQueue flags sub).rts = s.rts := by
  unfold Out.addQueue
  split <;> rfl

def Out.endGroup (s : Out) (flags : Flags) : GroupEnd → Out
  | .served sub => (s.hand sub).addQueue flags sub
  | .skipped sub => { s with didDeliver := true }.addQueue flags sub
  | .remote (some rsub) => (s.addTarget rsub).addQueue flags rsub
  | .remote none => s

def Conn.selects (c : Conn) (qsubs : List Sub) : Bool :=
  match c.queues, qsubs with
  | some qf, first :: _ => first.queue.any (fun tqn => qf.contains tqn)
  | _, _ => true

def queueLoop (c : Conn) (flags : Flags) (w : World) : Nat → List (List Sub) → Out → Out
  | _, [], s => s
  | i, qsubs :: rest, s =>
    if c.selects qsubs then
      queueLoop c flags w (i + 1) rest (s.endGroup flags (groupEnd c flags w i qsubs))
    else queueLoop c flags w (i + 1) rest s

def sendToRoutesOrLeafs (c : Conn) (w : World) : List RouteTarget → Out → Out
  | [], s => s
  | rt :: rts, s =>
    let dc := rt.sub.client
    if dc.kind = .leaf ∧ c.leafOrigin ≠ "" ∧ c.leafOrigin = dc.remoteCluster then
      sendToRoutesOrLeafs c w rts s
    else if w.deliverMsg rt.sub then sendToRoutesOrLeafs c w rts (s.hand rt.sub)
    else sendToRoutesOrLeafs c w rts s

def Conn.skipsQueues (c : Conn) (flags : Flags) : Bool :=
  (c.self.kind == .leaf || c.self.kind == .router || c.self.kind == .gateway) &&
    (c.queues.getD []).isEmpty && !flags.ignoreEmptyQueueFilter

def processMsgResults (c : Conn) (r : SublistResult) (flags : Flags) (w : World) : Out :=
  match plainLoop c flags w r.psubs ⟨false, [], [], []⟩ with
  | (s, true) => s
  | (s, false) =>
    if c.skipsQueues flags then sendToRoutesOrLeafs c w s.rts s
    else
      let s := queueLoop c flags w 0 r.qsubs s
      if flags.linearDelivery ∧ s.didDeliver then { s with rts := [] }
      else sendToRoutesOrLeafs c w s.rts s

/-- Only clients and internal senders publish through `processInboundClientMsg`, and only a
message from a route or a leaf node carries a queue filter. -/
structure Publisher where
  conn : Conn
  kind : conn.self.kind ≠ .router ∧ conn.self.kind ≠ .gateway ∧ conn.self.kind ≠ .leaf
  unfiltered : conn.queues = none

/-- A message as `processInboundClientMsg` gets it, with the answers to its checks. -/
structure Inbound where
  publisher : Publisher
  hdr : Int
  msg : Bytes
  hasGWRoutedReplyPrefix : Bool
  attached : Bool
  pubAllowed : Bool
  traceDestAllowed : Bool
  isNRGSubject : Bool
  isReservedReply : Bool
  isGWRouted : Bool
  gwLeafSubs : SublistResult

structure Gateway where
  enabled : Bool
  totalQSubs : Nat

structure Result where
  out : Out
  permIssue : Bool
  toGateways : Bool

def Out.nothing : Out := ⟨false, [], [], []⟩

def noFlag : Flags := ⟨false, false, false, false, false⟩

def inboundFlags (gateway : Gateway) (linear : Bool) (r : SublistResult) : Flags :=
  { noFlag with
    linearDelivery := linear
    collectQueueNames := !r.qsubs.isEmpty && gateway.enabled && decide (0 < gateway.totalQSubs) }

def processInboundClientMsg (m : Inbound) (gateway : Gateway) (r : SublistResult) (w : World) :
    Result :=
  let c := m.publisher.conn
  if c.self.kind = .client ∧ m.hasGWRoutedReplyPrefix then ⟨.nothing, true, false⟩
  else if ¬ m.attached then ⟨.nothing, false, false⟩
  else if ¬ m.pubAllowed then ⟨.nothing, true, false⟩
  else if m.hdr > 0 ∧ ¬ m.traceDestAllowed then ⟨.nothing, true, false⟩
  else if c.self.kind = .client ∧ m.isNRGSubject then ⟨.nothing, true, false⟩
  else if c.self.kind = .client ∧ m.isReservedReply then ⟨.nothing, true, false⟩
  else if m.isGWRouted then
    if m.gwLeafSubs.psubs.isEmpty then ⟨.nothing, false, gateway.enabled⟩
    else ⟨processMsgResults c m.gwLeafSubs noFlag w, false, gateway.enabled⟩
  else
    let linear := isLinearEvent m.hdr m.msg
    let out :=
      if r.psubs.isEmpty ∧ r.qsubs.isEmpty then .nothing
      else processMsgResults c r (inboundFlags gateway linear r) w
    ⟨out, false, gateway.enabled && !linear⟩

end LinearNats.Server
