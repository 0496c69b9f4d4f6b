import LinearNats.Client.Outbox

/-! The Zig outbox. Entries are removed in place while an index walks over the list. -/
namespace LinearNats.Client.Zig

structure SecurityOptions where
  dpopToken : Option String
  pqcPublicKey : Option String
  deriving DecidableEq, Repr

structure OutboxOptions where
  maxAttempts : Nat
  dlqSubject : Option String
  security : Option SecurityOptions
  deriving DecidableEq, Repr

structure OutboxEntry where
  id : String
  subject : String
  payload : List UInt8
  ttlMs : Option Nat
  attempts : Nat
  deriving DecidableEq, Repr

structure Outbox where
  entries : List OutboxEntry
  maxAttempts : Nat
  dlqSubject : Option String
  security : Option SecurityOptions
  nextId : Nat

def Outbox.init (opts : OutboxOptions) : Outbox :=
  ⟨[], if opts.maxAttempts = 0 then 3 else opts.maxAttempts, opts.dlqSubject, opts.security, 0⟩

def Outbox.enqueueLinear (o : Outbox) (subject : String) (payload : List UInt8)
    (ttlMs : Option Nat) : Outbox × String :=
  let id := Nat.repr (o.nextId + 1)
  ({ o with nextId := o.nextId + 1, entries := o.entries ++ [⟨id, subject, payload, ttlMs, 0⟩] }, id)

/-- The header list is appended to, never searched for a key that is already there. -/
def linearHeaders (entry : OutboxEntry) (security : Option SecurityOptions) : Header :=
  let headers : Header := [(linearEventHeader, linearEventType), (linearOutboxIDHeader, entry.id)]
  let headers := match entry.ttlMs with
    | some ttl => headers ++ [(linearTTLHeader, Nat.repr ttl)]
    | none => headers
  match security with
  | none => headers
  | some sec =>
    let headers := match sec.pqcPublicKey with
      | some pqc => headers ++
          [(linearPQCAlgorithmHeader, linearPQCAlgorithm), (linearPQCPublicKeyHeader, pqc)]
      | none => headers
    match sec.dpopToken with
    | some dpop => headers ++ [(dpopHeader, dpop)]
    | none => headers

def dlqHeaders (entry : OutboxEntry) (err : String) : Header :=
  [(linearOutboxIDHeader, entry.id), (linearDLQOriginalSubjectHeader, entry.subject),
    (linearDLQReasonHeader, err)]

/-- The loop as a walk: the entries before the index, then those from the index on. Each
iteration consumes one of the latter, either by `orderedRemove(index)` or by `index += 1`. -/
def Outbox.flushLoop (o : Outbox) (answers : Nat → Attempt) :
    Nat → List OutboxEntry → List OutboxEntry → List Call → Option String →
      List OutboxEntry × List Call × Option String
  | _, before, [], calls, firstErr => (before, calls, firstErr)
  | i, before, entry :: rest, calls, firstErr =>
    let calls := calls ++
      [⟨⟨entry.subject, linearHeaders entry o.security, entry.payload⟩, (answers i).publish⟩]
    match (answers i).publish with
    | none => o.flushLoop answers (i + 1) before rest calls firstErr
    | some err =>
      let firstErr := firstErr <|> some err
      let updated := { entry with attempts := entry.attempts + 1 }
      if o.maxAttempts ≤ updated.attempts then
        match o.dlqSubject with
        | some dlqSubject =>
          let calls := calls ++
            [⟨⟨dlqSubject, dlqHeaders entry err, entry.payload⟩, (answers i).dlq⟩]
          match (answers i).dlq with
          | none => o.flushLoop answers (i + 1) before rest calls firstErr
          | some dlqErr =>
            o.flushLoop answers (i + 1) (before ++ [updated]) rest calls (firstErr <|> some dlqErr)
        | none => o.flushLoop answers (i + 1) (before ++ [updated]) rest calls firstErr
      else o.flushLoop answers (i + 1) (before ++ [updated]) rest calls firstErr

def Outbox.flush (o : Outbox) (answers : Nat → Attempt) (calls : List Call) :
    Outbox × List Call × Option String :=
  let (entries, calls, err) := o.flushLoop answers 0 [] o.entries calls none
  ({ o with entries }, calls, err)

def OutboxEntry.job (e : OutboxEntry) : Job := ⟨e.id, e.subject, e.payload⟩
def OutboxEntry.view (e : OutboxEntry) : Job × Nat := (e.job, e.attempts)

theorem linearHeaders_linearFor (e : OutboxEntry) (security : Option SecurityOptions) :
    LinearFor e.job ⟨e.subject, linearHeaders e security, e.payload⟩ := by
  obtain ⟨id, subject, payload, ttlMs, attempts⟩ := e
  refine ⟨rfl, rfl, ?_, ?_⟩
  all_goals
    rcases security with _ | ⟨_ | dpop, _ | pqc⟩ <;> cases ttlMs <;> rfl

theorem dlqHeaders_deadFor (e : OutboxEntry) (dlqSubject err : String) :
    DeadFor (some dlqSubject) e.job ⟨dlqSubject, dlqHeaders e err, e.payload⟩ :=
  ⟨rfl, rfl, rfl, rfl, rfl, rfl⟩

theorem flushLoop_steps (o : Outbox) (answers : Nat → Attempt) (issued : List Job) (i : Nat)
    (before entries : List OutboxEntry) (calls : List Call) (firstErr : Option String) :
    Steps o.maxAttempts o.dlqSubject
      ⟨issued, before.map OutboxEntry.view ++ entries.map OutboxEntry.view, calls⟩
      ⟨issued, (o.flushLoop answers i before entries calls firstErr).1.map OutboxEntry.view,
        (o.flushLoop answers i before entries calls firstErr).2.1⟩ := by
  induction entries generalizing i before calls firstErr with
  | nil =>
    simp only [List.map_nil, List.append_nil]
    exact .refl
  | cons entry rest ih =>
    have linear := linearHeaders_linearFor entry o.security
    -- An entry that stays is read as the end of the part before the index.
    have kept : ∀ calls firstErr, Steps o.maxAttempts o.dlqSubject
        ⟨issued, before.map OutboxEntry.view ++
          (entry.job, entry.attempts + 1) :: rest.map OutboxEntry.view, calls⟩
        ⟨issued, (o.flushLoop answers (i + 1)
            (before ++ [{ entry with attempts := entry.attempts + 1 }]) rest calls firstErr).1.map
            OutboxEntry.view,
          (o.flushLoop answers (i + 1)
            (before ++ [{ entry with attempts := entry.attempts + 1 }]) rest calls firstErr).2.1⟩ := by
      intro calls firstErr
      have tail := ih (i + 1) (before ++ [{ entry with attempts := entry.attempts + 1 }]) calls firstErr
      rw [List.map_append, List.append_assoc] at tail
      exact tail
    simp only [Outbox.flushLoop, List.map_cons]
    split
    next accepted =>
      rw [accepted]
      exact (steps_accept issued _ _ calls linear).trans (ih (i + 1) before _ _)
    rename_i err rejected
    rw [rejected]
    split
    next reached =>
      split
      · rename_i dlqSubject dlq
        have dead := dlqHeaders_deadFor entry dlqSubject err
        rw [← dlq] at dead
        split
        · rename_i buried
          rw [buried]
          exact (steps_bury issued _ _ calls linear err reached dead).trans (ih (i + 1) before _ _)
        · rename_i dlqErr failed
          rw [failed]
          exact (steps_keep issued _ _ calls linear err dlqErr reached dead).trans (kept _ _)
      · exact (steps_reject issued _ _ calls linear err).trans (kept _ _)
    · exact (steps_reject issued _ _ calls linear err).trans (kept _ _)

def implementation : Implementation OutboxOptions Outbox (Option Nat) where
  new := Outbox.init
  enqueueLinear := Outbox.enqueueLinear
  flush := Outbox.flush
  nextId := Outbox.nextId
  pending := fun o => o.entries.map OutboxEntry.view
  limit := Outbox.maxAttempts
  dlq := Outbox.dlqSubject
  new_nextId := fun _ => rfl
  new_pending := fun _ => rfl
  enqueue_id := fun _ _ _ _ => rfl
  enqueue_nextId := fun _ _ _ _ => rfl
  enqueue_pending := by
    intro o subject payload ttl
    simp [Outbox.enqueueLinear, OutboxEntry.view, OutboxEntry.job]
  enqueue_config := fun _ _ _ _ => ⟨rfl, rfl⟩
  flush_steps := fun o answers issued calls =>
    flushLoop_steps o answers issued 0 [] o.entries calls none
  flush_config := fun _ _ _ => ⟨rfl, rfl, rfl⟩

end LinearNats.Client.Zig
