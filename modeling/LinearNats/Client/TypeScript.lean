import LinearNats.Client.Outbox

/-! The TypeScript outbox. The flush loop never moves its index: an entry is spliced out at
index zero or the loop ends with a throw. -/
namespace LinearNats.Client.TypeScript
open List

def truthy (s : Option String) : Option String := s.filter (fun s => s ≠ "")

structure SecurityOptions where
  dpopToken : Option String
  pqcPublicKey : Option String
  deriving DecidableEq, Repr

structure OutboxOptions where
  maxAttempts : Option Int
  dlqSubject : Option String
  security : Option SecurityOptions
  deriving DecidableEq, Repr

structure OutboxEntry where
  id : String
  subject : String
  payload : List UInt8
  ttlMs : Option Int
  attempts : Nat
  deriving DecidableEq, Repr

structure Outbox where
  entries : List OutboxEntry
  maxAttempts : Int
  dlqSubject : Option String
  security : Option SecurityOptions
  nextId : Nat

def Outbox.new (options : OutboxOptions) : Outbox :=
  ⟨[], max 1 (options.maxAttempts.getD 3), options.dlqSubject, options.security, 0⟩

def Outbox.enqueueLinear (o : Outbox) (subject : String) (payload : List UInt8)
    (ttlMs : Option Int) : Outbox × String :=
  let id := Nat.repr (o.nextId + 1)
  ({ o with nextId := o.nextId + 1, entries := o.entries ++ [⟨id, subject, payload, ttlMs, 0⟩] }, id)

def applySecurityHeaders (h : Header) (security : Option SecurityOptions) : Header :=
  match security with
  | none => h
  | some security =>
    let h := match truthy security.pqcPublicKey with
      | some publicKey =>
        (h.set linearPQCAlgorithmHeader linearPQCAlgorithm).set linearPQCPublicKeyHeader publicKey
      | none => h
    match truthy security.dpopToken with
    | some token => h.set dpopHeader token
    | none => h

def linearHeaders (entry : OutboxEntry) (security : Option SecurityOptions) : Header :=
  let h := (Header.set [] linearEventHeader linearEventType).set linearOutboxIDHeader entry.id
  let h := match entry.ttlMs with
    | some ttlMs => if ttlMs > 0 then h.set linearTTLHeader (Int.repr ttlMs) else h
    | none => h
  applySecurityHeaders h security

def dlqHeaders (entry : OutboxEntry) (err : String) : Header :=
  ((Header.set [] linearOutboxIDHeader entry.id).set linearDLQOriginalSubjectHeader
    entry.subject).set linearDLQReasonHeader err

/-- The loop on the entries that are left; `i` counts its iterations. The attempt is counted in
the entry itself, so it stays counted when the loop ends with a throw, also with one from the
publish of the dead letter. -/
def Outbox.flushLoop (o : Outbox) (answers : Nat → Attempt) :
    Nat → List OutboxEntry → List Call → List OutboxEntry × List Call × Option String
  | _, [], calls => ([], calls, none)
  | i, entry :: rest, calls =>
    let calls := calls ++
      [⟨⟨entry.subject, linearHeaders entry o.security, entry.payload⟩, (answers i).publish⟩]
    match (answers i).publish with
    | none => o.flushLoop answers (i + 1) rest calls
    | some err =>
      let entry := { entry with attempts := entry.attempts + 1 }
      if o.maxAttempts ≤ entry.attempts then
        match truthy o.dlqSubject with
        | some dlqSubject =>
          let calls := calls ++
            [⟨⟨dlqSubject, dlqHeaders entry err, entry.payload⟩, (answers i).dlq⟩]
          match (answers i).dlq with
          | none => o.flushLoop answers (i + 1) rest calls
          | some dlqErr => (entry :: rest, calls, some dlqErr)
        | none => (entry :: rest, calls, some err)
      else (entry :: rest, calls, some err)

def Outbox.flush (o : Outbox) (answers : Nat → Attempt) (calls : List Call) :
    Outbox × List Call × Option String :=
  let (entries, calls, err) := o.flushLoop answers 0 o.entries calls
  ({ o with entries }, calls, err)

def OutboxEntry.job (e : OutboxEntry) : Job := ⟨e.id, e.subject, e.payload⟩
def OutboxEntry.view (e : OutboxEntry) : Job × Nat := (e.job, e.attempts)

theorem applySecurityHeaders_get (h : Header) (security : Option SecurityOptions) {key : String}
    (alg : linearPQCAlgorithmHeader ≠ key) (pqc : linearPQCPublicKeyHeader ≠ key)
    (dpop : dpopHeader ≠ key) : (applySecurityHeaders h security).get key = h.get key := by
  rcases security with _ | security
  · rfl
  · simp only [applySecurityHeaders]
    cases truthy security.pqcPublicKey <;> cases truthy security.dpopToken <;>
      simp [Header.get_set, alg, pqc, dpop]

theorem linearHeaders_linearFor (e : OutboxEntry) (security : Option SecurityOptions) :
    LinearFor e.job ⟨e.subject, linearHeaders e security, e.payload⟩ := by
  have ttlId : linearTTLHeader ≠ linearOutboxIDHeader := by decide
  have ttlMark : linearTTLHeader ≠ linearEventHeader := by decide
  have idMark : linearOutboxIDHeader ≠ linearEventHeader := by decide
  refine ⟨rfl, rfl, ?_, ?_⟩
  · simp only [linearHeaders]
    rw [applySecurityHeaders_get _ _ (by decide) (by decide) (by decide)]
    split
    · split <;> simp [Header.get_set, ttlId, OutboxEntry.job]
    · simp [Header.get_set, OutboxEntry.job]
  · simp only [linearHeaders]
    rw [applySecurityHeaders_get _ _ (by decide) (by decide) (by decide)]
    split
    · split <;> simp [Header.get_set, ttlMark, idMark]
    · simp [Header.get_set, idMark]

theorem dlqHeaders_deadFor (e : OutboxEntry) (dlqSubject err : String) :
    DeadFor (some dlqSubject) e.job ⟨dlqSubject, dlqHeaders e err, e.payload⟩ := by
  constructor <;>
    simp [dlqHeaders, OutboxEntry.job, Header.get_set, linearOutboxIDHeader,
      linearDLQReasonHeader, linearDLQOriginalSubjectHeader, linearEventHeader]

theorem flushLoop_steps (o : Outbox) (answers : Nat → Attempt) (issued : List Job) (i : Nat)
    (entries : List OutboxEntry) (calls : List Call) :
    Steps o.maxAttempts.toNat (truthy o.dlqSubject)
      ⟨issued, entries.map OutboxEntry.view, calls⟩
      ⟨issued, (o.flushLoop answers i entries calls).1.map OutboxEntry.view,
        (o.flushLoop answers i entries calls).2.1⟩ := by
  induction entries generalizing i calls with
  | nil => exact .refl
  | cons entry rest ih =>
    have linear := linearHeaders_linearFor entry o.security
    simp only [Outbox.flushLoop, map_cons]
    split
    next accepted =>
      rw [accepted]
      exact (steps_accept issued [] _ calls linear).trans (ih (i + 1) _)
    rename_i err rejected
    rw [rejected]
    split
    next exhausted =>
      have reached : o.maxAttempts.toNat ≤ entry.attempts + 1 := Int.toNat_le.mpr exhausted
      split
      · rename_i dlqSubject dlq
        have dead := dlqHeaders_deadFor { entry with attempts := entry.attempts + 1 } dlqSubject err
        rw [← dlq] at dead
        split
        · rename_i buried
          rw [buried]
          exact (steps_bury issued [] _ calls linear err reached dead).trans (ih (i + 1) _)
        · rename_i dlqErr failed
          rw [failed, map_cons]
          exact steps_keep issued [] _ calls linear err dlqErr reached dead
      · rw [map_cons]
        exact steps_reject issued [] _ calls linear err
    · rw [map_cons]
      exact steps_reject issued [] _ calls linear err

def implementation : Implementation OutboxOptions Outbox (Option Int) where
  new := Outbox.new
  enqueueLinear := Outbox.enqueueLinear
  flush := Outbox.flush
  nextId := Outbox.nextId
  pending := fun o => o.entries.map OutboxEntry.view
  limit := fun o => o.maxAttempts.toNat
  dlq := fun o => truthy o.dlqSubject
  new_nextId := fun _ => rfl
  new_pending := fun _ => rfl
  enqueue_id := fun _ _ _ _ => rfl
  enqueue_nextId := fun _ _ _ _ => rfl
  enqueue_pending := by
    intro o subject payload ttl
    simp [Outbox.enqueueLinear, OutboxEntry.view, OutboxEntry.job]
  enqueue_config := fun _ _ _ _ => ⟨rfl, rfl⟩
  flush_steps := fun o answers issued calls => flushLoop_steps o answers issued 0 o.entries calls
  flush_config := fun _ _ _ => ⟨rfl, rfl, rfl⟩

end LinearNats.Client.TypeScript
