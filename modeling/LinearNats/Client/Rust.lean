import LinearNats.Client.Outbox

/-! The Rust outbox. `flush` takes entries from the front of the queue and stops at the first
one that is neither accepted nor dead-lettered. -/
namespace LinearNats.Client.Rust
open List

structure OutboxEntry where
  id : String
  subject : String
  payload : List UInt8
  ttl : Option Nat
  attempts : Nat
  deriving DecidableEq, Repr

structure SecurityOptions where
  dpopToken : Option String
  pqcPublicKey : Option String
  deriving DecidableEq, Repr

structure OutboxOptions where
  maxAttempts : Nat
  dlqSubject : Option String
  security : Option SecurityOptions
  deriving DecidableEq, Repr

structure Outbox where
  entries : List OutboxEntry
  nextId : Nat
  maxAttempts : Nat
  dlqSubject : Option String
  security : Option SecurityOptions

def Outbox.new (options : OutboxOptions) : Outbox :=
  ⟨[], 0, max options.maxAttempts 1, options.dlqSubject, options.security⟩

def Outbox.enqueueLinear (o : Outbox) (subject : String) (payload : List UInt8)
    (ttl : Option Nat) : Outbox × String :=
  let id := Nat.repr (o.nextId + 1)
  ({ o with nextId := o.nextId + 1, entries := o.entries ++ [⟨id, subject, payload, ttl, 0⟩] }, id)

def applySecurityHeaders (headers : Header) (security : Option SecurityOptions) : Header :=
  match security with
  | none => headers
  | some security =>
    let headers := match security.pqcPublicKey with
      | some publicKey =>
        (headers.set linearPQCAlgorithmHeader linearPQCAlgorithm).set
          linearPQCPublicKeyHeader publicKey
      | none => headers
    match security.dpopToken with
    | some token => headers.set dpopHeader token
    | none => headers

def OutboxEntry.linearHeaders (e : OutboxEntry) (security : Option SecurityOptions) : Header :=
  let headers := (Header.set [] linearEventHeader linearEventType).set linearOutboxIDHeader e.id
  let headers := match e.ttl with
    | some ttl => headers.set linearTTLHeader (Nat.repr (ttl / 1000000))
    | none => headers
  applySecurityHeaders headers security

def OutboxEntry.dlqHeaders (e : OutboxEntry) (reason : String) : Header :=
  ((Header.set [] linearOutboxIDHeader e.id).set linearDLQReasonHeader reason).set
    linearDLQOriginalSubjectHeader e.subject

/-- The `while let` loop over what `pop_front` still finds; `i` counts its iterations and
`remaining` is the queue a failed flush puts back in front of the rest. -/
def Outbox.flushLoop (o : Outbox) (answers : Nat → Attempt) (remaining : List OutboxEntry) :
    Nat → List OutboxEntry → List Call → List OutboxEntry × List Call × Option String
  | _, [], calls => (remaining, calls, none)
  | i, entry :: rest, calls =>
    let calls := calls ++
      [⟨⟨entry.subject, entry.linearHeaders o.security, entry.payload⟩, (answers i).publish⟩]
    match (answers i).publish with
    | none => o.flushLoop answers remaining (i + 1) rest calls
    | some err =>
      let entry := { entry with attempts := entry.attempts + 1 }
      if o.maxAttempts ≤ entry.attempts then
        match o.dlqSubject with
        | some dlqSubject =>
          let calls := calls ++
            [⟨⟨dlqSubject, entry.dlqHeaders err, entry.payload⟩, (answers i).dlq⟩]
          match (answers i).dlq with
          | none => o.flushLoop answers remaining (i + 1) rest calls
          | some dlqErr => (remaining ++ entry :: rest, calls, some dlqErr)
        | none => (remaining ++ entry :: rest, calls, some err)
      else (remaining ++ entry :: rest, calls, some err)

def Outbox.flush (o : Outbox) (answers : Nat → Attempt) (calls : List Call) :
    Outbox × List Call × Option String :=
  let (entries, calls, err) := o.flushLoop answers [] 0 o.entries calls
  ({ o with entries }, calls, err)

def OutboxEntry.job (e : OutboxEntry) : Job := ⟨e.id, e.subject, e.payload⟩
def OutboxEntry.view (e : OutboxEntry) : Job × Nat := (e.job, e.attempts)

theorem applySecurityHeaders_get (headers : Header) (security : Option SecurityOptions)
    {key : String} (alg : linearPQCAlgorithmHeader ≠ key) (pqc : linearPQCPublicKeyHeader ≠ key)
    (dpop : dpopHeader ≠ key) :
    (applySecurityHeaders headers security).get key = headers.get key := by
  rcases security with _ | ⟨_ | token, _ | publicKey⟩
  all_goals simp [applySecurityHeaders, Header.get_set, alg, pqc, dpop]

theorem linearHeaders_linearFor (e : OutboxEntry) (security : Option SecurityOptions) :
    LinearFor e.job ⟨e.subject, e.linearHeaders security, e.payload⟩ := by
  have ttlId : linearTTLHeader ≠ linearOutboxIDHeader := by decide
  have ttlMark : linearTTLHeader ≠ linearEventHeader := by decide
  have idMark : linearOutboxIDHeader ≠ linearEventHeader := by decide
  refine ⟨rfl, rfl, ?_, ?_⟩
  · simp only [OutboxEntry.linearHeaders]
    rw [applySecurityHeaders_get _ _ (by decide) (by decide) (by decide)]
    split <;> simp [Header.get_set, ttlId, OutboxEntry.job]
  · simp only [OutboxEntry.linearHeaders]
    rw [applySecurityHeaders_get _ _ (by decide) (by decide) (by decide)]
    split <;> simp [Header.get_set, ttlMark, idMark]

theorem dlqHeaders_deadFor (e : OutboxEntry) (dlqSubject reason : String) :
    DeadFor (some dlqSubject) e.job ⟨dlqSubject, e.dlqHeaders reason, e.payload⟩ := by
  constructor <;>
    simp [OutboxEntry.dlqHeaders, OutboxEntry.job, Header.get_set, linearOutboxIDHeader,
      linearDLQReasonHeader, linearDLQOriginalSubjectHeader, linearEventHeader]

theorem flushLoop_steps (o : Outbox) (answers : Nat → Attempt) (issued : List Job)
    (remaining : List OutboxEntry) (i : Nat) (entries : List OutboxEntry) (calls : List Call) :
    Steps o.maxAttempts o.dlqSubject
      ⟨issued, remaining.map OutboxEntry.view ++ entries.map OutboxEntry.view, calls⟩
      ⟨issued, (o.flushLoop answers remaining i entries calls).1.map OutboxEntry.view,
        (o.flushLoop answers remaining i entries calls).2.1⟩ := by
  induction entries generalizing i calls with
  | nil =>
    simp only [map_nil, append_nil]
    exact .refl
  | cons entry rest ih =>
    have linear := linearHeaders_linearFor entry o.security
    simp only [Outbox.flushLoop, map_cons]
    split
    next accepted =>
      rw [accepted]
      exact (steps_accept issued _ _ calls linear).trans (ih (i + 1) _)
    rename_i err rejected
    rw [rejected]
    split
    next reached =>
      split
      · rename_i dlqSubject dlq
        have dead := dlqHeaders_deadFor { entry with attempts := entry.attempts + 1 } dlqSubject err
        rw [← dlq] at dead
        split
        · rename_i buried
          rw [buried]
          exact (steps_bury issued _ _ calls linear err reached dead).trans (ih (i + 1) _)
        · rename_i dlqErr failed
          rw [failed, map_append, map_cons]
          exact steps_keep issued _ _ calls linear err dlqErr reached dead
      · rw [map_append, map_cons]
        exact steps_reject issued _ _ calls linear err
    · rw [map_append, map_cons]
      exact steps_reject issued _ _ calls linear err

def implementation : Implementation OutboxOptions Outbox (Option Nat) where
  new := Outbox.new
  enqueueLinear := Outbox.enqueueLinear
  flush := Outbox.flush
  nextId := Outbox.nextId
  pending := fun o => o.entries.map OutboxEntry.view
  limit := Outbox.maxAttempts
  dlq := Outbox.dlqSubject
  new_nextId := fun _ => rfl
  new_pending := fun _ => rfl
  enqueue_id := fun _ _ _ _ => rfl
  enqueue_nextId := fun _ _ _ _ => rfl
  enqueue_pending := by
    intro o subject payload ttl
    simp [Outbox.enqueueLinear, OutboxEntry.view, OutboxEntry.job]
  enqueue_config := fun _ _ _ _ => ⟨rfl, rfl⟩
  flush_steps := fun o answers issued calls =>
    flushLoop_steps o answers issued [] 0 o.entries calls
  flush_config := fun _ _ _ => ⟨rfl, rfl, rfl⟩

end LinearNats.Client.Rust
