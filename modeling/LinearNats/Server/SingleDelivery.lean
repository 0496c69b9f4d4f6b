import LinearNats.Server.Delivery

/-! Who gets a published message, in terms of the match result alone, and when that is one
receiver. -/
namespace LinearNats.Server
open List

def Sub.isLocal (s : Sub) : Bool :=
  s.client.kind != .router && s.client.kind != .gateway && s.client.kind != .leaf

def Sub.isRemote (s : Sub) : Bool := s.client.kind == .router || s.client.kind == .leaf

def Conn.takes (c : Conn) (w : World) (s : Sub) : Bool := !c.skips s && w.deliverMsg s

def Conn.collects (c : Conn) (s : Sub) : Bool :=
  s.client.kind == .router || (s.client.kind == .leaf && c.self.id != s.client.id)

def SublistResult.locals (r : SublistResult) : List Sub := r.psubs.filter Sub.isLocal

def collect (subs : List Sub) (rts : List RouteTarget) : List RouteTarget :=
  subs.foldl (fun rts s => addSubToRouteTargets s rts) rts

/-- No plain subscription refuses the message after a trace-only one was passed over, up to the
first that takes it. `d` says that one was passed over before. -/
def Conn.clean (c : Conn) (w : World) (d : Bool) (locals : List Sub) : Bool :=
  let refusing := locals.takeWhile (fun s => !c.takes w s)
  (if d then refusing else refusing.dropWhile (fun s => !c.skips s)).all c.skips

/-- The member of a queue group at which the walk ends: a subscription of this server that takes
the message or is passed over, or a routed one that stands for itself. -/
def Conn.decides (c : Conn) (w : World) (s : Sub) : Bool :=
  if s.isRemote then !(c.self.kind == .client && s.client.kind == .leaf) && s.origin == ""
  else c.skips s || w.deliverMsg s

def World.order (w : World) (i : Nat) (group : List Sub) : List Sub :=
  group.rotate (w.start i % group.length)

def Conn.choice (c : Conn) (w : World) (i : Nat) (group : List Sub) : Option Sub :=
  (w.order i group).find? (c.decides w)

def Conn.serves (c : Conn) (w : World) (i : Nat) (group : List Sub) : Option Sub :=
  (c.choice w i group).filter (fun t => !t.isRemote && !c.skips t)

def Conn.settles (c : Conn) (w : World) (i : Nat) (group : List Sub) : Bool :=
  (c.choice w i group).any (fun t => !t.isRemote)

def Conn.forwards (c : Conn) (w : World) (i : Nat) (group : List Sub) : Option Sub :=
  match c.choice w i group with
  | some t => if t.isRemote then some t else none
  | none => (w.order i group).find? Sub.isRemote

theorem plainLoop_local {c : Conn} {flags : Flags} {w : World} {sub : Sub} {rest : List Sub}
    {s : Out} (here : sub.isLocal = true) (imported : flags.msgImportedFromService = false) :
    plainLoop c flags w (sub :: rest) s =
      if c.skips sub then plainLoop c flags w rest { s with didDeliver := true }
      else
        let s := if w.deliverMsg sub then s.hand sub else s
        if flags.linearDelivery ∧ s.didDeliver then ({ s with rts := [] }, true)
        else plainLoop c flags w rest s := by
  rw [plainLoop]
  cases kind : sub.client.kind <;> simp_all [Sub.isLocal]

theorem plainLoop_other {p : Publisher} {flags : Flags} {w : World} {sub : Sub} {rest : List Sub}
    {s : Out} (there : sub.isLocal = false) :
    plainLoop p.conn flags w (sub :: rest) s =
      plainLoop p.conn flags w rest (if p.conn.collects sub then s.addTarget sub else s) := by
  have kinds := p.kind
  rw [plainLoop]
  cases kind : sub.client.kind <;>
    simp_all [Sub.isLocal, Conn.collects, Client.isSpokeLeafNode]
  split <;> rfl

theorem collect_cons (sub : Sub) (subs : List Sub) (rts : List RouteTarget) :
    collect (sub :: subs) rts = collect subs (addSubToRouteTargets sub rts) := rfl

theorem filter_collects_cons (c : Conn) (sub : Sub) (subs : List Sub) (s : Out) :
    collect ((sub :: subs).filter c.collects) s.rts =
      collect (subs.filter c.collects) (if c.collects sub then s.addTarget sub else s).rts := by
  cases yes : c.collects sub <;> simp [yes, collect_cons, Out.addTarget]

theorem not_collects_of_isLocal {c : Conn} {sub : Sub} (here : sub.isLocal = true) :
    c.collects sub = false := by
  cases kind : sub.client.kind <;> simp_all [Sub.isLocal, Conn.collects]

theorem clean_cons_skip {c : Conn} {sub : Sub} (skip : c.skips sub = true) (w : World) (d : Bool)
    (rest : List Sub) : c.clean w d (sub :: rest) = c.clean w true rest := by
  cases d <;> simp [Conn.clean, Conn.takes, skip]

section
variable {p : Publisher} {flags : Flags} {w : World}

section

variable (imported : flags.msgImportedFromService = false)

include imported

theorem plainLoop_fanout (fanout : flags.linearDelivery = false) (subs : List Sub) (s : Out) :
    plainLoop p.conn flags w subs s =
      ({ didDeliver := s.didDeliver ||
          (subs.filter Sub.isLocal).any (fun t => p.conn.skips t || w.deliverMsg t)
         rts := collect (subs.filter p.conn.collects) s.rts
         queues := s.queues
         handed := s.handed ++ (subs.filter Sub.isLocal).filter (p.conn.takes w) }, false) := by
  induction subs generalizing s with
  | nil => simp [plainLoop, collect]
  | cons sub rest ih =>
    cases here : sub.isLocal with
    | false =>
      rw [plainLoop_other here, ih, filter_collects_cons]
      cases yes : p.conn.collects sub <;> simp [here, Out.addTarget]
    | true =>
      have stays := not_collects_of_isLocal (c := p.conn) here
      rw [plainLoop_local here imported]
      cases skip : p.conn.skips sub with
      | true => simp [ih, here, stays, skip, Conn.takes]
      | false =>
        cases taken : w.deliverMsg sub with
        | true => simp [ih, here, stays, skip, taken, fanout, Conn.takes, Out.hand]
        | false => simp [ih, here, stays, skip, taken, fanout, Conn.takes]

/-- How the plain loop ends for a linear message: it may stop at a refusal behind a passed-over
subscription, stop at the first one that takes the message, or run through. -/
theorem plainLoop_linear (linear : flags.linearDelivery = true) (subs : List Sub) (s : Out) :
    plainLoop p.conn flags w subs s =
      let locals := subs.filter Sub.isLocal
      if p.conn.clean w s.didDeliver locals then
        match locals.find? (p.conn.takes w) with
        | some t => ({ s.hand t with rts := [] }, true)
        | none =>
          ({ s with
              didDeliver := s.didDeliver || locals.any p.conn.skips
              rts := collect (subs.filter p.conn.collects) s.rts }, false)
      else ({ s with didDeliver := true, rts := [] }, true) := by
  induction subs generalizing s with
  | nil => simp [plainLoop, collect, Conn.clean]
  | cons sub rest ih =>
    cases here : sub.isLocal with
    | false =>
      rw [plainLoop_other here, ih, filter_collects_cons]
      cases yes : p.conn.collects sub <;> simp [here, Out.addTarget, Out.hand]
    | true =>
      have stays := not_collects_of_isLocal (c := p.conn) here
      rw [plainLoop_local here imported]
      cases skip : p.conn.skips sub with
      | true =>
        have refuses : p.conn.takes w sub = false := by simp [Conn.takes, skip]
        simp [ih, here, stays, skip, refuses, clean_cons_skip skip, Out.hand]
      | false =>
        cases taken : w.deliverMsg sub with
        | true =>
          have takes : p.conn.takes w sub = true := by simp [Conn.takes, skip, taken]
          simp [here, takes, linear, Conn.clean, Out.hand]
        | false =>
          have refuses : p.conn.takes w sub = false := by simp [Conn.takes, taken]
          cases before : s.didDeliver with
          | true => simp [here, skip, refuses, linear, Conn.clean, before]
          | false => simp [ih, here, stays, skip, refuses, linear, Conn.clean, before]

/-- The walk over a group in one look: the first member that decides, or else the first of another
server. -/
theorem memberLoop_find (members : List Sub) (rsub : Option Sub) :
    memberLoop p.conn flags w members rsub =
      match members.find? (p.conn.decides w) with
      | some t =>
        if t.isRemote then .remote (some t) else if p.conn.skips t then .skipped t else .served t
      | none => .remote (rsub <|> members.find? Sub.isRemote) := by
  have kinds := p.kind
  have origin : p.conn.leafOrigin = "" := by
    cases kind : p.conn.self.kind <;> simp_all [Conn.leafOrigin]
  induction members generalizing rsub with
  | nil => simp [memberLoop]
  | cons sub rest ih =>
    simp only [memberLoop, kinds.2.2, false_and, if_false, false_or, imported, and_false,
      Bool.false_eq_true, origin]
    cases away : sub.isRemote with
    | false =>
      have kind : ¬ (sub.client.kind = .router ∨ sub.client.kind = .leaf) := by
        simpa [Sub.isRemote] using away
      rw [if_neg kind]
      cases skip : p.conn.skips sub with
      | true => simp [Conn.decides, away, skip]
      | false =>
        cases taken : w.deliverMsg sub with
        | true => simp [Conn.decides, away, skip, taken]
        | false => simp [Conn.decides, away, skip, taken, ih]
    | true =>
      have kind : sub.client.kind = .router ∨ sub.client.kind = .leaf := by
        simpa [Sub.isRemote] using away
      rw [if_pos kind]
      by_cases leaf : p.conn.self.kind = .client ∧ sub.client.kind = .leaf
      · have waits : p.conn.decides w sub = false := by simp [Conn.decides, away, leaf]
        rw [if_pos leaf, ih]
        cases rsub <;> simp [waits, away]
      rw [if_neg leaf]
      by_cases own : sub.origin = ""
      · have ends : p.conn.decides w sub = true := by
          have : ¬ p.conn.self.kind = .client ∨ ¬ sub.client.kind = .leaf := not_and_or.mp leaf
          simpa [Conn.decides, away, own] using this
        simp [own, ends, away]
      · have waits : p.conn.decides w sub = false := by simp [Conn.decides, away, own]
        cases rsub <;> simp [own, ih, waits, away]

theorem endGroup_fields (i : Nat) (group : List Sub) (s : Out) :
    let t := s.endGroup flags (groupEnd p.conn flags w i group)
    t.handed = s.handed ++ (p.conn.serves w i group).toList ∧
      t.didDeliver = (s.didDeliver || p.conn.settles w i group) ∧
      t.rts = collect (p.conn.forwards w i group).toList s.rts := by
  have ending : groupEnd p.conn flags w i group =
      match p.conn.choice w i group with
      | some t =>
        if t.isRemote then .remote (some t) else if p.conn.skips t then .skipped t else .served t
      | none => .remote ((w.order i group).find? Sub.isRemote) := by
    rw [groupEnd, if_neg p.kind.1]
    exact memberLoop_find imported _ none
  rw [ending, Conn.serves, Conn.settles, Conn.forwards]
  cases p.conn.choice w i group with
  | none => cases (w.order i group).find? Sub.isRemote <;> simp [Out.endGroup, Out.addTarget, collect]
  | some t =>
    cases away : t.isRemote with
    | true => simp [away, Out.endGroup, Out.addTarget, collect]
    | false =>
      cases skip : p.conn.skips t with
      | true => simp [away, skip, Out.endGroup, collect]
      | false => simp [away, skip, Out.endGroup, Out.hand, collect, Option.filter]

theorem queueLoop_fields (i : Nat) (groups : List (List Sub)) (s : Out) :
    let t := queueLoop p.conn flags w i groups s
    t.handed = s.handed ++ (groups.zipIdx i).filterMap (fun g => p.conn.serves w g.2 g.1) ∧
      t.didDeliver = (s.didDeliver || (groups.zipIdx i).any (fun g => p.conn.settles w g.2 g.1)) ∧
      t.rts = collect ((groups.zipIdx i).filterMap (fun g => p.conn.forwards w g.2 g.1)) s.rts := by
  induction groups generalizing i s with
  | nil => simp [queueLoop, collect]
  | cons group rest ih =>
    have selected : p.conn.selects group = true := by simp [Conn.selects, p.unfiltered]
    obtain ⟨handed, done, rts⟩ := endGroup_fields imported i group s (p := p) (w := w)
    obtain ⟨handed', done', rts'⟩ :=
      ih (i + 1) (s.endGroup flags (groupEnd p.conn flags w i group))
    simp only [queueLoop, selected, if_true, zipIdx_cons, filterMap_cons, any_cons]
    refine ⟨?_, ?_, ?_⟩
    · rw [handed', handed]
      cases p.conn.serves w i group <;> simp
    · rw [done', done, Bool.or_assoc]
    · rw [rts', rts]
      cases p.conn.forwards w i group <;> simp [collect]

end

theorem sendToRoutesOrLeafs_handed (rts : List RouteTarget) (s : Out) :
    (sendToRoutesOrLeafs p.conn w rts s).handed =
      s.handed ++ (rts.map RouteTarget.sub).filter w.deliverMsg := by
  have kinds := p.kind
  have origin : p.conn.leafOrigin = "" := by
    cases kind : p.conn.self.kind <;> simp_all [Conn.leafOrigin]
  induction rts generalizing s with
  | nil => simp [sendToRoutesOrLeafs]
  | cons rt rts ih =>
    cases taken : w.deliverMsg rt.sub <;>
      simp [sendToRoutesOrLeafs, origin, taken, ih, Out.hand]

end

/-! The receivers of a message, from the match result alone. -/
section
variable (p : Publisher) (r : SublistResult) (w : World)

def servedMembers : List Sub :=
  r.qsubs.zipIdx.filterMap (fun g => p.conn.serves w g.2 g.1)

def acceptingTargets : List Sub :=
  ((collect (r.qsubs.zipIdx.filterMap (fun g => p.conn.forwards w g.2 g.1))
    (collect (r.psubs.filter p.conn.collects) [])).map RouteTarget.sub).filter w.deliverMsg

/-- The local part is over without a plain subscriber: one was passed over, or a queue group is
done with. -/
def settledLocally : Bool :=
  r.locals.any p.conn.skips || r.qsubs.zipIdx.any (fun g => p.conn.settles w g.2 g.1)

def linearReceivers : List Sub :=
  if p.conn.clean w false r.locals then
    match r.locals.find? (p.conn.takes w) with
    | some t => [t]
    | none => if settledLocally p r w then servedMembers p r w else acceptingTargets p r w
  else []

def fanoutReceivers : List Sub :=
  r.locals.filter (p.conn.takes w) ++ servedMembers p r w ++ acceptingTargets p r w

theorem skipsQueues_publisher (flags : Flags) : p.conn.skipsQueues flags = false := by
  have kinds := p.kind
  cases kind : p.conn.self.kind <;> simp_all [Conn.skipsQueues]

theorem servedMembers_of_unsettled (unsettled : settledLocally p r w = false) :
    servedMembers p r w = [] := by
  rw [settledLocally, Bool.or_eq_false_iff] at unsettled
  rw [servedMembers, filterMap_eq_nil_iff]
  intro g hg
  have undone := any_eq_false.mp unsettled.2 g hg
  rw [Conn.settles] at undone
  rw [Conn.serves]
  cases choice : p.conn.choice w g.2 g.1 with
  | none => rfl
  | some t =>
    have away : t.isRemote = true := by simpa [choice] using undone
    simp [Option.filter, away]

theorem handed_linear {flags : Flags} (imported : flags.msgImportedFromService = false)
    (linear : flags.linearDelivery = true) :
    (processMsgResults p.conn r flags w).handed = linearReceivers p r w := by
  rw [processMsgResults, plainLoop_linear imported linear, linearReceivers]
  simp only [skipsQueues_publisher, Bool.false_eq_true, if_false, linear, true_and]
  rw [← SublistResult.locals]
  by_cases clean : p.conn.clean w false r.locals = true
  · rw [if_pos clean, if_pos clean]
    cases taker : r.locals.find? (p.conn.takes w) with
    | some t => simp [Out.hand]
    | none =>
      obtain ⟨handed, done, rts⟩ := queueLoop_fields imported 0 r.qsubs
        ⟨false || r.locals.any p.conn.skips, collect (r.psubs.filter p.conn.collects) [], [], []⟩
        (p := p) (w := w)
      have settled : (queueLoop p.conn flags w 0 r.qsubs ⟨false || r.locals.any p.conn.skips,
          collect (r.psubs.filter p.conn.collects) [], [], []⟩).didDeliver =
          settledLocally p r w := by
        rw [done, settledLocally, Bool.false_or]
      simp only [settled]
      cases here : settledLocally p r w with
      | true => simpa [servedMembers] using handed
      | false =>
        have nobody := servedMembers_of_unsettled p r w here
        rw [servedMembers] at nobody
        rw [nobody] at handed
        simp only [Bool.false_eq_true, if_false]
        rw [sendToRoutesOrLeafs_handed, handed, rts]
        rfl
  · rw [if_neg clean, if_neg clean]

theorem handed_fanout {flags : Flags} (imported : flags.msgImportedFromService = false)
    (fanout : flags.linearDelivery = false) :
    (processMsgResults p.conn r flags w).handed = fanoutReceivers p r w := by
  obtain ⟨handed, _, rts⟩ := queueLoop_fields imported 0 r.qsubs
    (plainLoop p.conn flags w r.psubs ⟨false, [], [], []⟩).1 (p := p) (w := w)
  rw [plainLoop_fanout imported fanout] at handed rts
  rw [processMsgResults, plainLoop_fanout imported fanout]
  simp only [skipsQueues_publisher, Bool.false_eq_true, if_false, fanout, false_and]
  rw [sendToRoutesOrLeafs_handed, handed, rts]
  simp [fanoutReceivers, servedMembers, acceptingTargets, SublistResult.locals]

def LocalTaker : Prop :=
  (∃ s ∈ r.locals, p.conn.takes w s = true) ∨
    ∃ group ∈ r.qsubs, ∃ s ∈ group, s.isRemote = false ∧ p.conn.takes w s = true

/-- At most one receiver, and exactly one if a subscription of this server would take it. -/
def SingleDelivery (handed : List Sub) : Prop :=
  handed.length ≤ 1 ∧ (LocalTaker p r w → handed.length = 1)

/-- One receiver, or none because nobody on this server would take the message. -/
def One (receivers : List Sub) : Prop :=
  receivers.length = 1 ∨ (receivers = [] ∧ ¬ LocalTaker p r w)

theorem singleDelivery_iff_one (handed : List Sub) :
    SingleDelivery p r w handed ↔ One p r w handed := by
  rw [SingleDelivery, One, ← length_eq_zero_iff]
  constructor
  · rintro ⟨few, one⟩
    by_cases taker : LocalTaker p r w
    · exact .inl (one taker)
    · have : handed.length = 0 ∨ handed.length = 1 := by omega
      exact this.elim (fun none => .inr ⟨none, taker⟩) .inl
  · rintro (one | ⟨none, nobody⟩)
    · exact ⟨by omega, fun _ => one⟩
    · exact ⟨by omega, fun taker => absurd taker nobody⟩

/-- When a linear message has one receiver. Up to the first plain subscription that takes it,
none may refuse it after a trace-only one was passed over, unless nobody would take it at all. If
no plain subscription takes it, either the queue groups served on this server are one, or none is
done with here and the collected routes and leaf nodes that accept it are one. -/
def LinearFits : Prop :=
  (p.conn.clean w false r.locals = false → ¬ LocalTaker p r w) ∧
  (p.conn.clean w false r.locals = true → (∀ s ∈ r.locals, p.conn.takes w s = false) →
    (settledLocally p r w = true → One p r w (servedMembers p r w)) ∧
    (settledLocally p r w = false → One p r w (acceptingTargets p r w)))

theorem one_linearReceivers : One p r w (linearReceivers p r w) ↔ LinearFits p r w := by
  rw [linearReceivers, LinearFits]
  cases clean : p.conn.clean w false r.locals with
  | false => simp [One]
  | true =>
    cases taker : r.locals.find? (p.conn.takes w) with
    | some t =>
      have takes := find?_some taker
      have member := mem_of_find?_eq_some taker
      have someone : ¬ ∀ s ∈ r.locals, p.conn.takes w s = false := by
        intro none
        simp [none t member] at takes
      simp [One, someone]
    | none =>
      have nobody : (∀ s ∈ r.locals, p.conn.takes w s = false) ↔ True := by
        simpa using find?_eq_none.mp taker
      simp only [nobody]
      cases settledLocally p r w <;> simp

end

/-- The message passes every check and is matched against the subscriptions. -/
def Inbound.Published (m : Inbound) : Prop :=
  ¬ (m.publisher.conn.self.kind = .client ∧
      (m.hasGWRoutedReplyPrefix ∨ m.isNRGSubject ∨ m.isReservedReply)) ∧
    m.attached ∧ m.pubAllowed ∧ (m.hdr > 0 → m.traceDestAllowed) ∧ ¬ m.isGWRouted

/-- A published message whose header block sets the event type to linear. -/
structure LinearPublish where
  inbound : Inbound
  published : inbound.Published
  block : Block
  payload : Bytes
  whole : inbound.msg = block.bytes ++ payload
  size : inbound.hdr = block.bytes.length
  line : Line
  first : block.lines.find? (fun l => l.key = linearEventHeader) = some line
  linear : line.linear = true

theorem processInboundClientMsg_published {m : Inbound} (published : m.Published)
    (gateway : Gateway) (r : SublistResult) (w : World) :
    (processInboundClientMsg m gateway r w).out.handed =
      if isLinearEvent m.hdr m.msg then linearReceivers m.publisher r w
      else fanoutReceivers m.publisher r w := by
  obtain ⟨allowed, attached, pubAllowed, traced, direct⟩ := published
  have prefixed : ¬ (m.publisher.conn.self.kind = .client ∧ m.hasGWRoutedReplyPrefix = true) :=
    fun h => allowed ⟨h.1, .inl h.2⟩
  have nrg : ¬ (m.publisher.conn.self.kind = .client ∧ m.isNRGSubject = true) :=
    fun h => allowed ⟨h.1, .inr (.inl h.2)⟩
  have reserved : ¬ (m.publisher.conn.self.kind = .client ∧ m.isReservedReply = true) :=
    fun h => allowed ⟨h.1, .inr (.inr h.2)⟩
  have trace : ¬ (m.hdr > 0 ∧ ¬ m.traceDestAllowed = true) := fun h => h.2 (traced h.1)
  simp only [processInboundClientMsg, prefixed, nrg, reserved, trace, attached, pubAllowed, direct,
    not_true_eq_false, if_false, Bool.false_eq_true]
  by_cases empty : r.psubs.isEmpty = true ∧ r.qsubs.isEmpty = true
  · obtain ⟨plain, groups⟩ := empty
    rw [List.isEmpty_iff] at plain groups
    simp [plain, groups, Out.nothing, linearReceivers, fanoutReceivers, servedMembers,
      acceptingTargets, SublistResult.locals, settledLocally, collect, Conn.clean]
  · rw [if_neg empty]
    cases linear : isLinearEvent m.hdr m.msg with
    | true => exact handed_linear m.publisher r w rfl rfl
    | false => exact handed_fanout m.publisher r w rfl rfl

/-- A linear message is delivered once exactly when the match result leaves one receiver; if the
lookup of its event type gives up, it is fanned out as any other message. -/
theorem linear_delivered_once_iff (m : LinearPublish) (gateway : Gateway) (r : SublistResult)
    (w : World) :
    SingleDelivery m.inbound.publisher r w
        (processInboundClientMsg m.inbound gateway r w).out.handed ↔
      if m.block.Reaches linearEventHeader then LinearFits m.inbound.publisher r w
      else One m.inbound.publisher r w (fanoutReceivers m.inbound.publisher r w) := by
  have seen : isLinearEvent m.inbound.hdr m.inbound.msg =
      decide (m.block.Reaches linearEventHeader) := by
    rw [m.whole, m.size, isLinearEvent_block, m.first]
    by_cases reaches : m.block.Reaches linearEventHeader
    · simp [reaches, m.linear]
    · simp [reaches]
  rw [processInboundClientMsg_published m.published, seen, singleDelivery_iff_one]
  by_cases reaches : m.block.Reaches linearEventHeader
  · simp only [reaches, decide_true, if_true]
    exact one_linearReceivers m.inbound.publisher r w
  · simp [reaches]

def linearOrder : LinearPublish where
  inbound :=
    { publisher := ⟨⟨⟨1, .client, none⟩, "", none, false, none⟩, by decide, rfl⟩
      hdr := 36
      msg := ascii "NATS/1.0\r\nNats-Event-Type:Linear\r\n\r\norder\r\n"
      hasGWRoutedReplyPrefix := false, attached := true, pubAllowed := true
      traceDestAllowed := true, isNRGSubject := false, isReservedReply := false
      isGWRouted := false, gwLeafSubs := ⟨[], []⟩ }
  published := by simp [Inbound.Published]
  block := natsBlock [⟨linearEventHeader, linearEventType, by decide, by decide, by decide⟩]
  payload := ascii "order\r\n"
  whole := by decide
  size := by decide
  line := ⟨linearEventHeader, linearEventType, by decide, by decide, by decide⟩
  first := rfl
  linear := by decide

def queueMember (sid : Nat) (queue : String) : Sub :=
  ⟨sid, ⟨sid, .client, none⟩, some queue, "", none⟩

def twoGroups : SublistResult := ⟨[], [[queueMember 2 "billing"], [queueMember 3 "shipping"]]⟩

/-- Both groups get the message: the queue loop does not look at the linear flag. -/
theorem linear_served_by_two_groups :
    (processInboundClientMsg linearOrder.inbound ⟨false, 0⟩ twoGroups
        ⟨fun _ => true, fun _ => 0, fun _ _ => false⟩).out.handed =
      [queueMember 2 "billing", queueMember 3 "shipping"] ∧
    ¬ SingleDelivery linearOrder.inbound.publisher twoGroups
        ⟨fun _ => true, fun _ => 0, fun _ _ => false⟩
        (processInboundClientMsg linearOrder.inbound ⟨false, 0⟩ twoGroups
          ⟨fun _ => true, fun _ => 0, fun _ _ => false⟩).out.handed := by
  have both : (processInboundClientMsg linearOrder.inbound ⟨false, 0⟩ twoGroups
        ⟨fun _ => true, fun _ => 0, fun _ _ => false⟩).out.handed =
      [queueMember 2 "billing", queueMember 3 "shipping"] := by decide
  refine ⟨both, ?_⟩
  rw [both]
  rintro ⟨few, _⟩
  exact absurd few (by decide)

end LinearNats.Server
