import LinearNats.Run

/-! What a linear outbox is for. The state is what a caller can observe: the jobs issued,
the jobs still pending with their failed attempts, and every publish call with its outcome.
The five client libraries are compared with these steps, never with each other. -/
namespace LinearNats.Client
open List

def linearEventHeader : String := "Nats-Event-Type"
def linearEventType : String := "Linear"
def linearTTLHeader : String := "Nats-Linear-TTL"
def linearOutboxIDHeader : String := "Nats-Linear-Outbox-Id"
def linearDLQReasonHeader : String := "Nats-Linear-DLQ-Reason"
def linearDLQOriginalSubjectHeader : String := "Nats-Linear-Original-Subject"
def linearPQCAlgorithmHeader : String := "Nats-Linear-PQC-Alg"
def linearPQCPublicKeyHeader : String := "Nats-Linear-PQC-Public-Key"
def dpopHeader : String := "DPoP"
def linearPQCAlgorithm : String := "ML-KEM-768"

abbrev Header := List (String × String)

def Header.set (h : Header) (key value : String) : Header :=
  h.filter (fun p => p.1 != key) ++ [(key, value)]

def Header.get (h : Header) (key : String) : Option String :=
  (h.find? (fun p => p.1 == key)).map Prod.snd

@[simp] theorem Header.get_nil (key : String) : Header.get [] key = none := rfl

theorem Header.get_set (h : Header) (key value other : String) :
    (h.set key value).get other = if key = other then some value else h.get other := by
  by_cases same : key = other
  · subst same
    have absent : (h.filter (fun p => p.1 != key)).find? (fun p => p.1 == key) = none := by
      simp only [find?_eq_none, mem_filter]
      intro p hp
      simpa using hp.2
    rw [if_pos rfl, Header.set, Header.get, find?_append, absent]
    simp
  have kept : (h.filter (fun p => p.1 != key)).find? (fun p => p.1 == other) =
      h.find? (fun p => p.1 == other) := by
    rw [find?_filter]
    congr 1
    funext p
    by_cases hp : p.1 = other
    · subst hp
      simp [Ne.symm same]
    · simp [hp]
  rw [if_neg same, Header.set, Header.get, find?_append, kept]
  simp [Header.get, same]

structure Msg where
  subject : String
  header : Header
  data : List UInt8
  deriving DecidableEq, Repr

structure Call where
  msg : Msg
  err : Option String
  deriving DecidableEq, Repr

/-- What the publisher answers in one iteration of a flush loop: to the entry itself, and
to its dead letter when the loop sends one. -/
structure Attempt where
  publish : Option String
  dlq : Option String
  deriving DecidableEq, Repr

structure Job where
  id : String
  subject : String
  payload : List UInt8
  deriving DecidableEq, Repr

/-- The message is a linear publish of the job to its own subject. -/
structure LinearFor (j : Job) (m : Msg) : Prop where
  subject : m.subject = j.subject
  data : m.data = j.payload
  id : m.header.get linearOutboxIDHeader = some j.id
  marked : m.header.get linearEventHeader = some linearEventType

/-- The message is a dead letter of the job, with its original payload and subject. -/
structure DeadFor (dlq : Option String) (j : Job) (m : Msg) : Prop where
  subject : dlq = some m.subject
  data : m.data = j.payload
  id : m.header.get linearOutboxIDHeader = some j.id
  original : m.header.get linearDLQOriginalSubjectHeader = some j.subject
  reason : (m.header.get linearDLQReasonHeader).isSome
  unmarked : m.header.get linearEventHeader = none

structure State where
  issued : List Job
  pending : List (Job × Nat)
  calls : List Call

/-- A publish is tried for some pending job: it is accepted and the job leaves, or it is
rejected and counted. A job is dead-lettered only at the limit and only when a DLQ subject
is set; a failed dead letter changes nothing but the call history. -/
inductive Step (limit : Nat) (dlq : Option String) : State → State → Prop where
  | accept {s : State} {xs ys : List (Job × Nat)} {j : Job} {k : Nat} {m : Msg} :
      s.pending = xs ++ (j, k) :: ys → LinearFor j m →
      Step limit dlq s { s with pending := xs ++ ys, calls := s.calls ++ [⟨m, none⟩] }
  | reject {s : State} {xs ys : List (Job × Nat)} {j : Job} {k : Nat} {m : Msg} (e : String) :
      s.pending = xs ++ (j, k) :: ys → LinearFor j m →
      Step limit dlq s
        { s with pending := xs ++ (j, k + 1) :: ys, calls := s.calls ++ [⟨m, some e⟩] }
  | bury {s : State} {xs ys : List (Job × Nat)} {j : Job} {k : Nat} {m : Msg} :
      s.pending = xs ++ (j, k) :: ys → limit ≤ k → DeadFor dlq j m →
      Step limit dlq s { s with pending := xs ++ ys, calls := s.calls ++ [⟨m, none⟩] }
  | keep {s : State} {xs ys : List (Job × Nat)} {j : Job} {k : Nat} {m : Msg} (e : String) :
      s.pending = xs ++ (j, k) :: ys → limit ≤ k → DeadFor dlq j m →
      Step limit dlq s { s with calls := s.calls ++ [⟨m, some e⟩] }

def Steps (limit : Nat) (dlq : Option String) : State → State → Prop :=
  Relation.ReflTransGen (Step limit dlq)

/-! The four ways an implementation can treat one entry, as outbox steps. -/
section
variable {limit : Nat} {dlq : Option String} (issued : List Job) (xs ys : List (Job × Nat))
  {j : Job} {k : Nat} {m d : Msg} (calls : List Call)

theorem steps_accept (linear : LinearFor j m) :
    Steps limit dlq ⟨issued, xs ++ (j, k) :: ys, calls⟩
      ⟨issued, xs ++ ys, calls ++ [⟨m, none⟩]⟩ :=
  .single (.accept (s := ⟨issued, xs ++ (j, k) :: ys, calls⟩) rfl linear)

theorem steps_reject (linear : LinearFor j m) (e : String) :
    Steps limit dlq ⟨issued, xs ++ (j, k) :: ys, calls⟩
      ⟨issued, xs ++ (j, k + 1) :: ys, calls ++ [⟨m, some e⟩]⟩ :=
  .single (.reject (s := ⟨issued, xs ++ (j, k) :: ys, calls⟩) e rfl linear)

theorem steps_bury (linear : LinearFor j m) (e : String) (reached : limit ≤ k + 1)
    (dead : DeadFor dlq j d) :
    Steps limit dlq ⟨issued, xs ++ (j, k) :: ys, calls⟩
      ⟨issued, xs ++ ys, calls ++ [⟨m, some e⟩] ++ [⟨d, none⟩]⟩ :=
  (steps_reject issued xs ys calls linear e).tail
    (.bury (s := ⟨issued, xs ++ (j, k + 1) :: ys, calls ++ [⟨m, some e⟩]⟩) rfl reached dead)

theorem steps_keep (linear : LinearFor j m) (e e' : String) (reached : limit ≤ k + 1)
    (dead : DeadFor dlq j d) :
    Steps limit dlq ⟨issued, xs ++ (j, k) :: ys, calls⟩
      ⟨issued, xs ++ (j, k + 1) :: ys, calls ++ [⟨m, some e⟩] ++ [⟨d, some e'⟩]⟩ :=
  (steps_reject issued xs ys calls linear e).tail
    (.keep (s := ⟨issued, xs ++ (j, k + 1) :: ys, calls ++ [⟨m, some e⟩]⟩) e' rfl reached dead)

end

def State.initial : State := ⟨[], [], []⟩

def State.enqueue (s : State) (subject : String) (payload : List UInt8) : State :=
  let j : Job := ⟨Nat.repr (s.issued.length + 1), subject, payload⟩
  { s with issued := s.issued ++ [j], pending := s.pending ++ [(j, 0)] }

def Msg.linear (m : Msg) : Bool := m.header.get linearEventHeader == some linearEventType
def Msg.outboxId (m : Msg) : Option String := m.header.get linearOutboxIDHeader

def settled (calls : List Call) : List String :=
  calls.filterMap (fun c => if c.err.isNone then c.msg.outboxId else none)

def failures (calls : List Call) (id : String) : Nat :=
  calls.countP (fun c => c.msg.linear && c.msg.outboxId == some id && c.err.isSome)

/-- Once a message of some id was accepted, the publisher sees no other message of that id. -/
def Final (calls : List Call) : Prop :=
  ∀ before c after, calls = before ++ c :: after → c.err = none →
    ∀ d ∈ after, d.msg.outboxId ≠ c.msg.outboxId

def State.pendingIds (s : State) : List String := s.pending.map (fun p => p.1.id)
def State.issuedIds (s : State) : List String := s.issued.map Job.id

/-- The law every outbox has to keep. -/
structure Law (limit : Nat) (dlq : Option String) (s : State) : Prop where
  ids : s.issuedIds = (List.range' 1 s.issued.length).map Nat.repr
  conserved : ∀ id, s.pendingIds.count id + (settled s.calls).count id = s.issuedIds.count id
  sound : ∀ c ∈ s.calls, ∃ j ∈ s.issued, LinearFor j c.msg ∨ DeadFor dlq j c.msg
  counter : ∀ p ∈ s.pending, failures s.calls p.1.id = p.2
  late : ∀ before c after, s.calls = before ++ c :: after → c.msg.linear = false →
    ∀ id, c.msg.outboxId = some id → limit ≤ failures before id
  final : Final s.calls
  order : (s.pending.map Prod.fst).Sublist s.issued

variable {j : Job} {m : Msg} {id : String} {s : State}

theorem LinearFor.linear (h : LinearFor j m) : m.linear = true := by
  simp [Msg.linear, h.marked]

theorem LinearFor.outboxId (h : LinearFor j m) : m.outboxId = some j.id :=
  h.id

theorem DeadFor.linear {dlq : Option String} (h : DeadFor dlq j m) : m.linear = false := by
  simp [Msg.linear, h.unmarked]

theorem DeadFor.outboxId {dlq : Option String} (h : DeadFor dlq j m) : m.outboxId = some j.id :=
  h.id

section

variable (calls : List Call)

include calls

theorem settled_append (c : Call) :
    settled (calls ++ [c]) =
      settled calls ++ (if c.err.isNone then c.msg.outboxId else none).toList := by
  simp only [settled, filterMap_append, filterMap_cons, filterMap_nil]
  cases (if c.err.isNone then c.msg.outboxId else none) <;> rfl

theorem settled_append_ok (h : m.outboxId = some id) :
    settled (calls ++ [⟨m, none⟩]) = settled calls ++ [id] := by
  simp [settled_append, h]

theorem settled_append_err (m : Msg) (e : String) :
    settled (calls ++ [⟨m, some e⟩]) = settled calls := by
  simp [settled_append]

theorem failures_append (c : Call) (id : String) :
    failures (calls ++ [c]) id =
      failures calls id + if c.msg.linear && c.msg.outboxId == some id && c.err.isSome then 1 else 0 := by
  simp [failures, countP_append, countP_singleton]

theorem failures_append_unmarked (h : m.linear = false) (err : Option String) (id : String) :
    failures (calls ++ [⟨m, err⟩]) id = failures calls id := by
  simp [failures_append, h]

theorem failures_append_rejected (h : LinearFor j m) (e : String) (id : String) :
    failures (calls ++ [⟨m, some e⟩]) id = failures calls id + if j.id = id then 1 else 0 := by
  simp [failures_append, h.linear, h.outboxId]

end

theorem append_singleton_split {α : Type*} {calls before after : List α} {last c : α}
    (h : calls ++ [last] = before ++ c :: after) :
    (∃ rest, after = rest ++ [last] ∧ calls = before ++ c :: rest) ∨
      (after = [] ∧ c = last ∧ calls = before) := by
  rcases eq_nil_or_concat after with rfl | ⟨rest, x, rfl⟩
  · have h' : calls ++ [last] = before ++ [c] := h
    obtain ⟨h₁, h₂⟩ := append_inj' h' rfl
    exact .inr ⟨rfl, (singleton_inj.mp h₂).symm, h₁⟩
  have h' : calls ++ [last] = (before ++ c :: rest) ++ [x] := by simpa using h
  obtain ⟨h₁, h₂⟩ := append_inj' h' rfl
  have hx : x = last := (singleton_inj.mp h₂).symm
  exact .inl ⟨rest, by rw [hx, concat_eq_append], h₁⟩

section
variable {limit : Nat} {dlq : Option String} {s : State}

theorem Law.issued_nodup (law : Law limit dlq s) : s.issuedIds.Nodup := by
  rw [law.ids]
  have numbers : (List.range' 1 s.issued.length).Nodup := nodup_range'
  exact numbers.map (fun _ _ h => Nat.repr_injective h)

theorem Law.pending_nodup (law : Law limit dlq s) : s.pendingIds.Nodup := by
  have sub : s.pendingIds.Sublist s.issuedIds := by
    simpa [State.pendingIds, State.issuedIds, Function.comp_def] using law.order.map Job.id
  exact law.issued_nodup.sublist sub

theorem law_initial (limit : Nat) (dlq : Option String) : Law limit dlq State.initial where
  ids := rfl
  conserved := fun _ => rfl
  sound := by simp [State.initial]
  counter := by simp [State.initial]
  late := by simp [State.initial]
  final := by simp [Final, State.initial]
  order := List.Sublist.slnil

theorem Law.fresh (law : Law limit dlq s) : Nat.repr (s.issued.length + 1) ∉ s.issuedIds := by
  rw [law.ids]
  intro mem
  obtain ⟨n, hn, heq⟩ := mem_map.mp mem
  have bounds := mem_range'_1.mp hn
  have := Nat.repr_injective heq
  omega

theorem Law.failures_unissued (law : Law limit dlq s) {id : String} (h : id ∉ s.issuedIds) :
    failures s.calls id = 0 := by
  simp only [failures, countP_eq_zero]
  intro c hc counted
  obtain ⟨j, hj, kind⟩ := law.sound c hc
  have hid : c.msg.outboxId = some j.id := by
    rcases kind with kind | kind
    · exact kind.outboxId
    · exact kind.outboxId
  have : j.id = id := by simp_all
  exact h (this ▸ mem_map_of_mem hj)

theorem law_enqueue (law : Law limit dlq s) (subject : String) (payload : List UInt8) :
    Law limit dlq (s.enqueue subject payload) where
  ids := by
    have ids := law.ids
    simp only [State.issuedIds] at ids
    simp [State.enqueue, State.issuedIds, ids, range'_concat, add_comm]
  conserved := by
    intro id
    have h := law.conserved id
    simp only [State.pendingIds, State.issuedIds] at h
    simp only [State.enqueue, State.pendingIds, State.issuedIds, map_append, count_append,
      map_cons, map_nil]
    omega
  sound := by
    intro c hc
    obtain ⟨j, hj, kind⟩ := law.sound c hc
    exact ⟨j, mem_append_left _ hj, kind⟩
  counter := by
    refine forall_mem_append.mpr ⟨law.counter, forall_mem_singleton.mpr ?_⟩
    exact law.failures_unissued law.fresh
  late := law.late
  final := law.final
  order := by
    simp only [State.enqueue, map_append, map_cons, map_nil]
    exact law.order.append (List.Sublist.refl _)

variable {xs ys : List (Job × Nat)} {j : Job} {k : Nat} {m : Msg} {err : Option String}
  {p : Job × Nat}

section

variable (law : Law limit dlq s)

include law

theorem Law.split_ids (split : s.pending = xs ++ (j, k) :: ys) :
    (j ∈ s.issued) ∧ ∀ p ∈ xs ++ ys, p.1.id ≠ j.id := by
  have issued : j ∈ s.issued := by
    apply law.order.subset
    simp [split]
  have nodup := law.pending_nodup
  simp only [State.pendingIds, split, map_append, map_cons] at nodup
  have mid := nodup_middle.mp nodup
  refine ⟨issued, ?_⟩
  intro p hp same
  apply (nodup_cons.mp mid).1
  rw [← same, ← map_append]
  exact mem_map_of_mem hp

theorem Law.late_append
    (last : m.linear = false → ∀ id, m.outboxId = some id → limit ≤ failures s.calls id) :
    ∀ before c after, s.calls ++ [⟨m, err⟩] = before ++ c :: after → c.msg.linear = false →
      ∀ id, c.msg.outboxId = some id → limit ≤ failures before id := by
  intro before c after split unmarked id hid
  rcases append_singleton_split split with ⟨rest, _, old⟩ | ⟨_, rfl, rfl⟩
  · exact law.late before c rest old unmarked id hid
  · exact last unmarked id hid

theorem Law.unsettled (hp : p ∈ s.pending) : p.1.id ∉ settled s.calls := by
  intro mem
  have pending : 0 < s.pendingIds.count p.1.id :=
    count_pos_iff.mpr (mem_map_of_mem hp)
  have accepted : 0 < (settled s.calls).count p.1.id := count_pos_iff.mpr mem
  have once := nodup_iff_count_le_one.mp law.issued_nodup p.1.id
  have total := law.conserved p.1.id
  omega

theorem Law.final_append (hp : p ∈ s.pending) (hid : m.outboxId = some p.1.id) :
    Final (s.calls ++ [⟨m, err⟩]) := by
  intro before c after split accepted d hd
  rcases append_singleton_split split with ⟨rest, rfl, old⟩ | ⟨rfl, _, _⟩
  · rcases mem_append.mp hd with hd | hd
    · exact law.final before c rest old accepted d hd
    · obtain rfl := mem_singleton.mp hd
      intro same
      apply law.unsettled hp
      have seen : c ∈ s.calls := old ▸ mem_append_right _ mem_cons_self
      exact mem_filterMap.mpr ⟨c, seen, by simp [accepted, ← same, hid]⟩
  · simp at hd

theorem Law.sound_append (issued : j ∈ s.issued) (kind : LinearFor j m ∨ DeadFor dlq j m) :
    ∀ c ∈ s.calls ++ [⟨m, err⟩], ∃ j ∈ s.issued, LinearFor j c.msg ∨ DeadFor dlq j c.msg := by
  exact forall_mem_append.mpr ⟨law.sound, forall_mem_singleton.mpr ⟨j, issued, kind⟩⟩

theorem Law.conserved_settle (split : s.pending = xs ++ (j, k) :: ys) (hid : m.outboxId = some j.id)
    (id : String) :
    ((xs ++ ys).map (fun p => p.1.id)).count id +
      (settled (s.calls ++ [⟨m, none⟩])).count id = s.issuedIds.count id := by
  have h := law.conserved id
  simp only [State.pendingIds, split, map_append, map_cons, count_append, count_cons] at h
  simp only [settled_append_ok s.calls hid, map_append, count_append, count_singleton]
  omega

theorem Law.order_drop (split : s.pending = xs ++ p :: ys) :
    ((xs ++ ys).map Prod.fst).Sublist s.issued := by
  have h := law.order
  rw [split] at h
  exact (((sublist_cons_self p ys).append_left xs).map Prod.fst).trans h

end

section

variable (law : Law limit dlq s) (split : s.pending = xs ++ (j, k) :: ys)

include law split

/-- What the calls and the pending jobs of a state have to satisfy after one more call about
the pending job `j`: the jobs that stay keep their counters. -/
theorem Law.counter_others (hid : m.outboxId = some j.id) :
    ∀ p ∈ xs ++ ys, failures (s.calls ++ [⟨m, err⟩]) p.1.id = p.2 := by
  intro p hp
  have other := (law.split_ids split).2 p hp
  have old : failures s.calls p.1.id = p.2 := by
    apply law.counter
    rw [split]
    exact ((sublist_cons_self _ ys).append_left xs).subset hp
  simp [failures_append, hid, Ne.symm other, old]

theorem law_settle (kind : LinearFor j m ∨ (limit ≤ k ∧ DeadFor dlq j m)) :
    Law limit dlq { s with pending := xs ++ ys, calls := s.calls ++ [⟨m, none⟩] } := by
  have hid : m.outboxId = some j.id := kind.elim (·.outboxId) (·.2.outboxId)
  have issued := (law.split_ids split).1
  exact {
    ids := law.ids
    conserved := law.conserved_settle split hid
    sound := law.sound_append issued (kind.imp id And.right)
    counter := law.counter_others split hid
    late := by
      apply law.late_append
      intro unmarked id other
      rcases kind with linear | ⟨reached, _⟩
      · simp [linear.linear] at unmarked
      have same : j.id = id := by simpa [hid] using other
      have count := law.counter (j, k) (by simp [split])
      rw [← same, count]
      exact reached
    final := law.final_append (p := (j, k)) (by simp [split]) hid
    order := law.order_drop split }

theorem law_reject (linear : LinearFor j m) (e : String) :
    Law limit dlq
      { s with pending := xs ++ (j, k + 1) :: ys, calls := s.calls ++ [⟨m, some e⟩] } where
  ids := law.ids
  conserved := by
    intro id
    have h := law.conserved id
    simp only [State.pendingIds, split, map_append, map_cons, State.issuedIds] at h
    simpa only [State.pendingIds, map_append, map_cons, settled_append_err, State.issuedIds] using h
  sound := law.sound_append (law.split_ids split).1 (.inl linear)
  counter := by
    obtain ⟨front, back⟩ := forall_mem_append.mp (law.counter_others split linear.outboxId)
    refine forall_mem_append.mpr ⟨front, forall_mem_cons.mpr ⟨?_, back⟩⟩
    have old := law.counter (j, k) (by simp [split])
    simp [failures_append_rejected s.calls linear, old]
  late := by
    apply law.late_append
    intro unmarked
    simp [linear.linear] at unmarked
  final := law.final_append (p := (j, k)) (by simp [split]) linear.outboxId
  order := by
    have h := law.order
    rw [split] at h
    simpa using h

theorem law_keep (reached : limit ≤ k) (dead : DeadFor dlq j m) (e : String) :
    Law limit dlq { s with calls := s.calls ++ [⟨m, some e⟩] } where
  ids := law.ids
  conserved := by
    intro id
    simpa only [State.pendingIds, State.issuedIds, settled_append_err] using law.conserved id
  sound := law.sound_append (law.split_ids split).1 (.inr dead)
  counter := by
    intro p hp
    rw [failures_append_unmarked s.calls dead.linear]
    exact law.counter p hp
  late := by
    apply law.late_append
    intro _ id other
    have same : j.id = id := by simpa [dead.outboxId] using other
    rw [← same, law.counter (j, k) (by simp [split])]
    exact reached
  final := law.final_append (p := (j, k)) (by simp [split]) dead.outboxId
  order := law.order

end

theorem law_step (law : Law limit dlq s) {t : State} (step : Step limit dlq s t) :
    Law limit dlq t := by
  cases step with
  | accept split linear => exact law_settle law split (.inl linear)
  | reject e split linear => exact law_reject law split linear e
  | bury split reached dead => exact law_settle law split (.inr ⟨reached, dead⟩)
  | keep e split reached dead => exact law_keep law split reached dead e

theorem law_steps (law : Law limit dlq s) {t : State} (steps : Steps limit dlq s t) :
    Law limit dlq t := by
  induction steps with
  | refl => exact law
  | tail _ step ih => exact law_step ih step

end

def successes (calls : List Call) (id : String) : List Msg :=
  (calls.filter (fun c => c.err.isNone && c.msg.outboxId == some id)).map Call.msg

/-- Exactly one place for an issued job: pending once and never accepted, or gone and
accepted exactly once, either on its own subject or on the DLQ subject. -/
def InOnePlace (dlq : Option String) (s : State) (j : Job) : Prop :=
  (s.pendingIds.count j.id = 1 ∧ successes s.calls j.id = []) ∨
  (s.pendingIds.count j.id = 0 ∧ ∃ m, successes s.calls j.id = [m] ∧ LinearFor j m) ∨
  (s.pendingIds.count j.id = 0 ∧ ∃ m, successes s.calls j.id = [m] ∧ DeadFor dlq j m)

theorem count_settled (calls : List Call) (id : String) :
    (settled calls).count id = (successes calls id).length := by
  induction calls with
  | nil => rfl
  | cons c rest ih =>
    simp only [settled, successes, length_map] at ih ⊢
    rw [filterMap_cons, filter_cons]
    cases hc : c.err with
    | some e => simpa [hc] using ih
    | none =>
      cases ho : c.msg.outboxId with
      | none => simpa [hc, ho] using ih
      | some other =>
        by_cases same : other = id
        · simpa [hc, ho, same] using ih
        · simpa [hc, ho, same] using ih

theorem mem_successes {calls : List Call} (h : m ∈ successes calls id) :
    ∃ c ∈ calls, c.msg = m ∧ m.outboxId = some id := by
  simp only [successes, mem_map, mem_filter, Bool.and_eq_true, beq_iff_eq] at h
  obtain ⟨c, ⟨hc, _, hid⟩, rfl⟩ := h
  exact ⟨c, hc, rfl, hid⟩

section

variable {limit : Nat} {dlq : Option String} (law : Law limit dlq s)

include law

theorem Law.issued_unique {i : Job} (hi : i ∈ s.issued) (hj : j ∈ s.issued) (same : i.id = j.id) :
    i = j :=
  inj_on_of_nodup_map law.issued_nodup hi hj same

theorem Law.accepted_kind (hj : j ∈ s.issued) (hm : m ∈ successes s.calls j.id) :
    LinearFor j m ∨ DeadFor dlq j m := by
  obtain ⟨c, hc, rfl, hid⟩ := mem_successes hm
  obtain ⟨i, hi, kind⟩ := law.sound c hc
  have same : i.id = j.id := by
    have : c.msg.outboxId = some i.id := kind.elim (·.outboxId) (·.outboxId)
    simpa [hid] using this.symm
  exact law.issued_unique hi hj same ▸ kind

theorem Law.inOnePlace (hj : j ∈ s.issued) : InOnePlace dlq s j := by
  have one : s.issuedIds.count j.id = 1 :=
    count_eq_one_of_mem law.issued_nodup (mem_map_of_mem hj)
  have total := law.conserved j.id
  rw [one, count_settled] at total
  by_cases pending : s.pendingIds.count j.id = 1
  · have none : (successes s.calls j.id).length = 0 := by omega
    exact .inl ⟨pending, length_eq_zero_iff.mp none⟩
  have gone : s.pendingIds.count j.id = 0 := by omega
  have single : (successes s.calls j.id).length = 1 := by omega
  obtain ⟨m, hm⟩ := length_eq_one_iff.mp single
  rcases law.accepted_kind hj (hm ▸ mem_singleton_self m) with kind | kind
  · exact .inr (.inl ⟨gone, m, hm, kind⟩)
  · exact .inr (.inr ⟨gone, m, hm, kind⟩)

end

/-- What a caller is promised: no job is lost, none is accepted twice or tried again after it
was accepted, and the pending jobs stand in the order they were issued. -/
structure Conserves (dlq : Option String) (s : State) : Prop where
  onePlace : ∀ j ∈ s.issued, InOnePlace dlq s j
  final : Final s.calls
  order : (s.pending.map Prod.fst).Sublist s.issued

theorem Law.conserves {limit : Nat} {dlq : Option String} (law : Law limit dlq s) :
    Conserves dlq s :=
  ⟨fun _ hj => law.inOnePlace hj, law.final, law.order⟩

theorem Conserves.count {dlq : Option String} (h : Conserves dlq s) (issued : id ∈ s.issuedIds) :
    s.pendingIds.count id + (settled s.calls).count id = 1 := by
  obtain ⟨j, hj, rfl⟩ := mem_map.mp issued
  rw [count_settled]
  rcases h.onePlace j hj with ⟨one, none⟩ | ⟨zero, m, single, _⟩ | ⟨zero, m, single, _⟩
  · simp [one, none]
  · simp [zero, single]
  · simp [zero, single]

/-- Two sets of pending jobs that fit the same history have the same size: an array that holds
more than the law leaves pending breaks the promise. -/
theorem Law.pending_length {limit : Nat} {dlq : Option String} (law : Law limit dlq s)
    {pending : List (Job × Nat)} (h : Conserves dlq { s with pending }) :
    pending.length = s.pending.length := by
  have same : ∀ id, (pending.map (fun p => p.1.id)).count id = s.pendingIds.count id := by
    intro id
    have total := law.conserved id
    by_cases issued : id ∈ s.issuedIds
    · have one : s.issuedIds.count id = 1 := count_eq_one_of_mem law.issued_nodup issued
      have other := h.count issued
      simp only [State.pendingIds] at other total ⊢
      omega
    have absent : id ∉ pending.map (fun p => p.1.id) := by
      intro mem
      have sub : (pending.map (fun p => p.1.id)).Sublist s.issuedIds := by
        simpa [State.issuedIds, Function.comp_def] using h.order.map Job.id
      exact issued (sub.subset mem)
    rw [count_eq_zero_of_not_mem absent]
    rw [count_eq_zero_of_not_mem issued] at total
    omega
  have perm : (pending.map (fun p => p.1.id)).Perm s.pendingIds := perm_iff_count.mpr same
  simpa [State.pendingIds] using perm.length_eq

/-- What the client libraries share. Besides the promise to the caller: the attempts of a pending
job are its rejected publishes, a dead letter is sent only when the limit is reached and a DLQ
subject is set, a job none of whose publishes was accepted is still pending, and the ids are the
numbers from one on in the order of the jobs. -/
structure Contract (limit : Nat) (dlq : Option String) (s : State) : Prop where
  conserves : Conserves dlq s
  counter : ∀ p ∈ s.pending, failures s.calls p.1.id = p.2
  late : ∀ before c after, s.calls = before ++ c :: after → c.msg.linear = false →
    ∀ id, c.msg.outboxId = some id → limit ≤ failures before id
  noDlq : dlq = none → ∀ c ∈ s.calls, c.msg.linear = true
  kept : ∀ j ∈ s.issued, (∀ c ∈ s.calls, c.msg.outboxId = some j.id → c.err ≠ none) →
    s.pendingIds.count j.id = 1
  ids : s.issuedIds = (List.range' 1 s.issued.length).map Nat.repr

theorem Law.contract {limit : Nat} {dlq : Option String} (law : Law limit dlq s) :
    Contract limit dlq s where
  conserves := law.conserves
  counter := law.counter
  late := law.late
  noDlq := by
    intro unset c hc
    obtain ⟨j, _, linear | dead⟩ := law.sound c hc
    · exact linear.linear
    · have := dead.subject
      simp [unset] at this
  kept := by
    intro j hj failed
    have none : successes s.calls j.id = [] := by
      simp only [successes, map_eq_nil_iff, filter_eq_nil_iff, Bool.and_eq_true,
        beq_iff_eq, Option.isNone_iff_eq_none]
      intro c hc accepted
      exact failed c hc accepted.2 accepted.1
    rcases law.inOnePlace hj with ⟨one, _⟩ | ⟨_, m, single, _⟩ | ⟨_, m, single, _⟩
    · exact one
    · simp [none] at single
    · simp [none] at single
  ids := law.ids

/-- A client library as its caller sees it. The proofs that come with it say that each call is
the outbox call of that name: an entry is numbered and queued, and a flush is a sequence of
outbox steps whatever the publisher answers. -/
structure Implementation (Options Box TTL : Type) where
  new : Options → Box
  enqueueLinear : Box → String → List UInt8 → TTL → Box × String
  flush : Box → (Nat → Attempt) → List Call → Box × List Call × Option String
  nextId : Box → Nat
  pending : Box → List (Job × Nat)
  limit : Box → Nat
  dlq : Box → Option String
  new_nextId : ∀ opts, nextId (new opts) = 0
  new_pending : ∀ opts, pending (new opts) = []
  enqueue_id : ∀ b subject payload ttl,
    (enqueueLinear b subject payload ttl).2 = Nat.repr (nextId b + 1)
  enqueue_nextId : ∀ b subject payload ttl,
    nextId (enqueueLinear b subject payload ttl).1 = nextId b + 1
  enqueue_pending : ∀ b subject payload ttl,
    pending (enqueueLinear b subject payload ttl).1 =
      pending b ++ [(⟨Nat.repr (nextId b + 1), subject, payload⟩, 0)]
  enqueue_config : ∀ b subject payload ttl,
    limit (enqueueLinear b subject payload ttl).1 = limit b ∧
      dlq (enqueueLinear b subject payload ttl).1 = dlq b
  flush_steps : ∀ b answers issued calls,
    Steps (limit b) (dlq b) ⟨issued, pending b, calls⟩
      ⟨issued, pending (flush b answers calls).1, (flush b answers calls).2.1⟩
  flush_config : ∀ b answers calls,
    nextId (flush b answers calls).1 = nextId b ∧
      limit (flush b answers calls).1 = limit b ∧ dlq (flush b answers calls).1 = dlq b

inductive Op (TTL : Type) where
  | enqueueLinear (subject : String) (payload : List UInt8) (ttl : TTL)
  | flush (answers : Nat → Attempt)

structure World (Box : Type) where
  box : Box
  issued : List Job
  calls : List Call

namespace Implementation
variable {Options Box TTL : Type} (m : Implementation Options Box TTL)

def start (opts : Options) : World Box := ⟨m.new opts, [], []⟩

def step (w : World Box) : Op TTL → World Box
  | .enqueueLinear subject payload ttl =>
    let (box, id) := m.enqueueLinear w.box subject payload ttl
    { w with box, issued := w.issued ++ [⟨id, subject, payload⟩] }
  | .flush answers =>
    let (box, calls, _) := m.flush w.box answers w.calls
    { w with box, calls }

def state (w : World Box) : State := ⟨w.issued, m.pending w.box, w.calls⟩

/-- The counter of the box numbers the issued jobs, its settings never change and its state
keeps the law. -/
structure Sound (opts : Options) (w : World Box) : Prop where
  counter : m.nextId w.box = w.issued.length
  limit : m.limit w.box = m.limit (m.new opts)
  dlq : m.dlq w.box = m.dlq (m.new opts)
  law : Law (m.limit (m.new opts)) (m.dlq (m.new opts)) (m.state w)

theorem sound_step {opts : Options} (w : World Box) (op : Op TTL) (sound : m.Sound opts w) :
    m.Sound opts (m.step w op) := by
  cases op with
  | enqueueLinear subject payload ttl =>
    have config := m.enqueue_config w.box subject payload ttl
    have queued : m.state (m.step w (.enqueueLinear subject payload ttl)) =
        (m.state w).enqueue subject payload := by
      simp [state, step, State.enqueue, m.enqueue_pending, m.enqueue_id, sound.counter]
    constructor
    · simp [step, m.enqueue_nextId, sound.counter]
    · exact config.1.trans sound.limit
    · exact config.2.trans sound.dlq
    · rw [queued]
      exact law_enqueue sound.law subject payload
  | flush answers =>
    have config := m.flush_config w.box answers w.calls
    have steps := m.flush_steps w.box answers w.issued w.calls
    rw [sound.limit, sound.dlq] at steps
    exact ⟨config.1.trans sound.counter, config.2.1.trans sound.limit,
      config.2.2.trans sound.dlq, law_steps sound.law steps⟩

theorem law_run (opts : Options) (ops : List (Op TTL)) :
    Law (m.limit (m.new opts)) (m.dlq (m.new opts)) (m.state (run m.step (m.start opts) ops)) := by
  have initial : m.Sound opts (m.start opts) := by
    refine ⟨m.new_nextId opts, rfl, rfl, ?_⟩
    rw [state, start, m.new_pending]
    exact law_initial _ _
  exact (run_invariant m.step (m.Sound opts) m.sound_step initial ops).law

end Implementation

end LinearNats.Client
