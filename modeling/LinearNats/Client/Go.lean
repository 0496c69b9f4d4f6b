import LinearNats.Client.Outbox

/-! The Go outbox. Entries are pointers into a heap, because a failed flush can leave the
same pointer in two slots, and `remaining := o.entries[:0]` shares the backing array of the
slice that the loop is still reading. -/
namespace LinearNats.Client.Go
open List

structure SecurityOptions where
  enablePQC : Bool
  dpopKey : Bool
  deriving DecidableEq, Repr

structure OutboxOptions where
  maxAttempts : Int
  dlqSubject : String
  security : Option SecurityOptions
  deriving DecidableEq, Repr

structure OutboxEntry where
  id : String
  subject : String
  payload : List UInt8
  ttl : Int
  attempts : Nat
  deriving DecidableEq, Repr, Inhabited

structure Crypto where
  ephemeralPQCLinearKey : Except String String
  dpopProof : Except String String

structure FlushAttempt extends Attempt where
  crypto : Crypto

structure Outbox where
  pub : Bool
  dlq : String
  max : Int
  security : Option SecurityOptions
  entries : List Nat
  nextID : Nat
  heap : List OutboxEntry

def newOutbox (pub : Bool) (opts : OutboxOptions) : Outbox :=
  { pub, dlq := opts.dlqSubject, max := if opts.maxAttempts ≤ 0 then 3 else opts.maxAttempts,
    security := opts.security, entries := [], nextID := 0, heap := [] }

def Outbox.enqueueLinear (o : Outbox) (subject : String) (payload : List UInt8) (ttl : Int) :
    Outbox × String :=
  let id := Nat.repr (o.nextID + 1)
  ({ o with nextID := o.nextID + 1, entries := o.entries ++ [o.heap.length],
            heap := o.heap ++ [⟨id, subject, payload, ttl, 0⟩] }, id)

def applySecurityHeaders (h : Header) (security : Option SecurityOptions) (c : Crypto) :
    Except String Header :=
  match security with
  | none => .ok h
  | some s => do
    let h ← if s.enablePQC then do
        let pub ← c.ephemeralPQCLinearKey
        pure ((h.set linearPQCAlgorithmHeader linearPQCAlgorithm).set linearPQCPublicKeyHeader pub)
      else pure h
    if s.dpopKey then do
      let token ← c.dpopProof
      pure (h.set dpopHeader token)
    else pure h

/-- `Duration.Milliseconds` truncates towards zero. -/
def OutboxEntry.message (e : OutboxEntry) (security : Option SecurityOptions) (c : Crypto) :
    Except String Msg := do
  let h := (Header.set [] linearEventHeader linearEventType).set linearOutboxIDHeader e.id
  let h := if e.ttl > 0 then h.set linearTTLHeader (Int.repr (e.ttl.tdiv 1000000)) else h
  let h ← applySecurityHeaders h security c
  pure ⟨e.subject, h, e.payload⟩

def OutboxEntry.dlqMessage (e : OutboxEntry) (subject reason : String) : Msg :=
  ⟨subject, ((Header.set [] linearDLQReasonHeader reason).set
    linearDLQOriginalSubjectHeader e.subject).set linearOutboxIDHeader e.id, e.payload⟩

/-- The locals of `Flush`. `backing` is the array behind `o.entries`; `remaining` is the
length of the prefix of it that the loop has compacted so far. -/
structure Loop where
  backing : List Nat
  remaining : Nat
  heap : List OutboxEntry
  firstErr : Option String
  calls : List Call

def Loop.keep (s : Loop) (p : Nat) : Loop :=
  { s with backing := s.backing.set s.remaining p, remaining := s.remaining + 1 }

def Loop.entryAt (s : Loop) (i : Nat) : OutboxEntry := s.heap.getD (s.backing.getD i 0) default

def Outbox.flushEntry (o : Outbox) (a : FlushAttempt) (i : Nat) (s : Loop) : Except String Loop :=
  let p := s.backing.getD i 0
  let entry := s.entryAt i
  match entry.message o.security a.crypto with
  | .error buildErr => .error buildErr
  | .ok msg =>
    let s := { s with calls := s.calls ++ [⟨msg, a.publish⟩] }
    match a.publish with
    | none => .ok s
    | some err =>
      let entry := { entry with attempts := entry.attempts + 1 }
      let s := { s with heap := s.heap.set p entry, firstErr := s.firstErr <|> some err }
      if o.max ≤ entry.attempts ∧ o.dlq ≠ "" then
        let s := { s with calls := s.calls ++ [⟨entry.dlqMessage o.dlq err, a.dlq⟩] }
        match a.dlq with
        | none => .ok s
        | some dlqErr => .ok ({ s with firstErr := s.firstErr <|> some dlqErr }.keep p)
      else .ok (s.keep p)

/-- The `n` iterations from index `i` on; a build error leaves the loop as it stands. -/
def Outbox.flushLoop (o : Outbox) (f : Nat → FlushAttempt) :
    Nat → Nat → Loop → Loop × Option String
  | 0, _, s => (s, none)
  | n + 1, i, s =>
    match o.flushEntry (f i) i s with
    | .error buildErr => (s, some buildErr)
    | .ok s => Outbox.flushLoop o f n (i + 1) s

/-- After a build error `o.entries` still has its old length over the rewritten array. The
slots past `remaining` are cleared for the collector only, so they are dropped here. -/
def Outbox.flush (o : Outbox) (f : Nat → FlushAttempt) (calls : List Call) :
    Outbox × List Call × Option String :=
  if o.pub then
    match o.flushLoop f o.entries.length 0 ⟨o.entries, 0, o.heap, none, calls⟩ with
    | (s, some buildErr) =>
      ({ o with entries := s.backing, heap := s.heap }, s.calls, some buildErr)
    | (s, none) =>
      ({ o with entries := s.backing.take s.remaining, heap := s.heap }, s.calls, s.firstErr)
  else (o, calls, none)

def OutboxEntry.job (e : OutboxEntry) : Job := ⟨e.id, e.subject, e.payload⟩

theorem applySecurityHeaders_get {h h' : Header} {security : Option SecurityOptions} {c : Crypto}
    (ok : applySecurityHeaders h security c = .ok h') (key : String)
    (free : key ∉ [linearPQCAlgorithmHeader, linearPQCPublicKeyHeader, dpopHeader]) :
    h'.get key = h.get key := by
  simp only [mem_cons, not_mem_nil, or_false, not_or] at free
  obtain ⟨alg, pqc, dpop⟩ := free
  cases security with
  | none => cases ok; rfl
  | some s =>
    obtain ⟨enablePQC, dpopKey⟩ := s
    obtain ⟨pqcKey, proof⟩ := c
    cases enablePQC <;> cases dpopKey <;> cases pqcKey <;> cases proof <;>
      simp only [applySecurityHeaders, bind, Except.bind, pure, Except.pure, Bool.false_eq_true,
        if_true, if_false, reduceCtorEq, Except.ok.injEq] at ok
    all_goals
      subst ok
      simp only [Header.get_set, Ne.symm alg, Ne.symm pqc, Ne.symm dpop, if_false]

theorem message_linearFor {e : OutboxEntry} {security : Option SecurityOptions} {c : Crypto}
    {m : Msg} (ok : e.message security c = .ok m) : LinearFor e.job m := by
  simp only [OutboxEntry.message, bind, Except.bind, pure, Except.pure] at ok
  split at ok
  · contradiction
  rename_i h hh
  cases ok
  have ids := applySecurityHeaders_get hh linearOutboxIDHeader (by decide)
  have marks := applySecurityHeaders_get hh linearEventHeader (by decide)
  have ttlId : linearTTLHeader ≠ linearOutboxIDHeader := by decide
  have ttlMark : linearTTLHeader ≠ linearEventHeader := by decide
  have idMark : linearOutboxIDHeader ≠ linearEventHeader := by decide
  refine ⟨rfl, rfl, ?_, ?_⟩
  · rw [ids]
    split <;> simp [Header.get_set, ttlId, OutboxEntry.job]
  · rw [marks]
    split <;> simp [Header.get_set, ttlMark, idMark]

def Outbox.effectiveDlq (o : Outbox) : Option String := if o.dlq = "" then none else some o.dlq

variable {o : Outbox} {p i : Nat} {heap : List OutboxEntry} {s : Loop}

theorem dlqMessage_deadFor (e : OutboxEntry) (set : o.dlq ≠ "") (reason : String) :
    DeadFor o.effectiveDlq e.job (e.dlqMessage o.dlq reason) := by
  constructor <;>
    simp [Outbox.effectiveDlq, set, OutboxEntry.dlqMessage, OutboxEntry.job, Header.get_set,
      linearOutboxIDHeader, linearDLQReasonHeader, linearDLQOriginalSubjectHeader,
      linearEventHeader]

def view (heap : List OutboxEntry) (p : Nat) : Job × Nat :=
  ((heap.getD p default).job, (heap.getD p default).attempts)

theorem getD_set_of_ne (heap : List OutboxEntry) (e : OutboxEntry) {q : Nat} (ne : p ≠ q) :
    (heap.set p e).getD q default = heap.getD q default := by
  simp [getElem?_set_ne ne]

theorem view_set_of_ne (heap : List OutboxEntry) (e : OutboxEntry) {q : Nat} (ne : p ≠ q) :
    view (heap.set p e) q = view heap q := by
  simp only [view, getD_set_of_ne heap e ne]

theorem view_set_self (bound : p < heap.length) (e : OutboxEntry) :
    view (heap.set p e) p = (e.job, e.attempts) := by
  simp [view, bound]

theorem map_view_set (e : OutboxEntry) {ps : List Nat} (absent : p ∉ ps) :
    ps.map (view (heap.set p e)) = ps.map (view heap) := by
  apply map_congr_left
  intro q hq
  exact view_set_of_ne heap e (fun same => absent (same ▸ hq))

/-- The entries the flush has not let go when it reaches index `i`: the compacted prefix and
everything it has not looked at. -/
def Loop.live (s : Loop) (i : Nat) : List Nat := s.backing.take s.remaining ++ s.backing.drop i

def Loop.state (issued : List Job) (s : Loop) (i : Nat) : State :=
  ⟨issued, (s.live i).map (view s.heap), s.calls⟩

/-- The half-compacted array against the queue the flush started from. -/
structure LoopInv (o : Outbox) (i : Nat) (s : Loop) : Prop where
  compact : s.remaining ≤ i
  length : s.backing.length = o.entries.length
  nodup : (s.live i).Nodup
  bound : ∀ p ∈ s.live i, p < s.heap.length
  ahead : s.backing.drop i = o.entries.drop i
  fresh : ∀ p ∈ o.entries.drop i, s.heap.getD p default = o.heap.getD p default

theorem LoopInv.entry_mem (inv : LoopInv o i s) (hi : i < o.entries.length) :
    s.backing.drop i = s.backing.getD i 0 :: s.backing.drop (i + 1) := by
  have bound : i < s.backing.length := inv.length ▸ hi
  rw [drop_eq_getElem_cons bound]
  simp [bound]

/-- The next entry leaves without a trace in the array: only `i` moves. -/
theorem LoopInv.skip (inv : LoopInv o i s) (hi : i < o.entries.length) (heap : List OutboxEntry)
    (firstErr : Option String) (calls : List Call) (size : heap.length = s.heap.length)
    (same : ∀ q, q ≠ s.backing.getD i 0 → heap.getD q default = s.heap.getD q default) :
    LoopInv o (i + 1) ⟨s.backing, s.remaining, heap, firstErr, calls⟩ := by
  have split := inv.entry_mem hi
  have nodup := inv.nodup
  have bound := inv.bound
  simp only [Loop.live, split] at nodup bound
  have next := (nodup_cons.mp (nodup_middle.mp nodup))
  have ahead : s.backing.drop (i + 1) = o.entries.drop (i + 1) := by
    rw [← drop_drop, inv.ahead, drop_drop]
  constructor
  · exact Nat.le_succ_of_le inv.compact
  · exact inv.length
  · exact next.2
  · intro p hp
    show p < heap.length
    rw [size]
    exact bound _ (((sublist_cons_self _ _).append_left _).subset hp)
  · exact ahead
  · intro p hp
    have member : p ∈ s.backing.drop (i + 1) := ahead ▸ hp
    have ne : p ≠ s.backing.getD i 0 := by
      intro eq
      exact next.1 (mem_append_right _ (eq ▸ member))
    show heap.getD p default = o.heap.getD p default
    rw [same p ne]
    apply inv.fresh
    rw [← inv.ahead, split]
    exact mem_cons_of_mem _ member

theorem keep_live (room : s.remaining < s.backing.length) (compact : s.remaining ≤ i) :
    (s.keep p).live (i + 1) = s.backing.take s.remaining ++ p :: s.backing.drop (i + 1) := by
  have prefixed : (s.backing.set s.remaining p).take (s.remaining + 1) =
      s.backing.take s.remaining ++ [p] := by
    rw [take_succ_eq_append_getElem (by simpa using room)]
    simp [take_set_of_le (le_refl s.remaining)]
  have suffix : (s.backing.set s.remaining p).drop (i + 1) = s.backing.drop (i + 1) :=
    drop_set_of_lt (by omega)
  simp [Loop.live, Loop.keep, prefixed, suffix]

/-- The next entry is kept: it moves down to the end of the compacted prefix. -/
theorem LoopInv.keep (inv : LoopInv o i s) (hi : i < o.entries.length) (heap : List OutboxEntry)
    (firstErr : Option String) (calls : List Call) (size : heap.length = s.heap.length)
    (same : ∀ q, q ≠ s.backing.getD i 0 → heap.getD q default = s.heap.getD q default) :
    LoopInv o (i + 1)
      ((⟨s.backing, s.remaining, heap, firstErr, calls⟩ : Loop).keep (s.backing.getD i 0)) := by
  have split := inv.entry_mem hi
  have skipped := inv.skip hi heap firstErr calls size same
  have room : s.remaining < s.backing.length := by
    have := inv.compact
    have := inv.length
    omega
  have live := keep_live (s := ⟨s.backing, s.remaining, heap, firstErr, calls⟩)
    (p := s.backing.getD i 0) room inv.compact
  have before : s.live i =
      s.backing.take s.remaining ++ s.backing.getD i 0 :: s.backing.drop (i + 1) := by
    rw [Loop.live, split]
  constructor
  · exact Nat.succ_le_succ inv.compact
  · simpa [Loop.keep] using inv.length
  · rw [live, ← before]; exact inv.nodup
  · intro p hp
    rw [live, ← before] at hp
    show p < heap.length
    rw [size]
    exact inv.bound p hp
  · rw [← skipped.ahead]
    exact drop_set_of_lt (Nat.lt_succ_of_le inv.compact)
  · exact skipped.fresh

def Outbox.leaves (o : Outbox) (e : OutboxEntry) (a : FlushAttempt) : Bool :=
  a.publish.isNone || (decide (o.max ≤ e.attempts + 1) && o.dlq != "" && a.dlq.isNone)

def Outbox.limit (o : Outbox) : Nat := o.max.toNat

theorem limit_le {n : Nat} (h : o.max ≤ n) : o.limit ≤ n := Int.toNat_le.mpr h

/-- One iteration is a few outbox steps, and keeps the array and the queue in step. -/
theorem flushEntry_spec {t : Loop} (inv : LoopInv o i s) (hi : i < o.entries.length)
    (a : FlushAttempt) (ok : o.flushEntry a i s = .ok t) (issued : List Job) :
    Steps o.limit o.effectiveDlq (s.state issued i) (t.state issued (i + 1)) ∧
      LoopInv o (i + 1) t ∧
      t.remaining = s.remaining + if o.leaves (s.entryAt i) a then 0 else 1 := by
  have split := inv.entry_mem hi
  have nodup := inv.nodup
  have bound := inv.bound
  simp only [Loop.live, split] at nodup bound
  have next := nodup_cons.mp (nodup_middle.mp nodup)
  have before : s.state issued i = ⟨issued,
      (s.backing.take s.remaining).map (view s.heap) ++
        ((s.entryAt i).job, (s.entryAt i).attempts) :: (s.backing.drop (i + 1)).map (view s.heap),
      s.calls⟩ := by
    simp only [Loop.state, Loop.live, split, map_append, map_cons]
    rfl
  have inHeap : s.backing.getD i 0 < s.heap.length :=
    bound _ (mem_append_right _ mem_cons_self)
  have unchanged : ∀ e q, q ≠ s.backing.getD i 0 →
      (s.heap.set (s.backing.getD i 0) e).getD q default = s.heap.getD q default :=
    fun e q ne => getD_set_of_ne s.heap e (Ne.symm ne)
  -- The states after the entry has gone, and after it was kept with a new record.
  have gone : ∀ e firstErr calls,
      (⟨s.backing, s.remaining, s.heap.set (s.backing.getD i 0) e, firstErr, calls⟩ : Loop).state
        issued (i + 1) =
      ⟨issued, (s.backing.take s.remaining).map (view s.heap) ++
        (s.backing.drop (i + 1)).map (view s.heap), calls⟩ := by
    intro e firstErr calls
    simp only [Loop.state, Loop.live]
    rw [map_view_set e next.1, map_append]
  have kept : ∀ e firstErr calls,
      ((⟨s.backing, s.remaining, s.heap.set (s.backing.getD i 0) e, firstErr, calls⟩ : Loop).keep
        (s.backing.getD i 0)).state issued (i + 1) =
      ⟨issued, (s.backing.take s.remaining).map (view s.heap) ++
        (e.job, e.attempts) :: (s.backing.drop (i + 1)).map (view s.heap), calls⟩ := by
    intro e firstErr calls
    have room : s.remaining < s.backing.length := by
      have := inv.compact
      have := inv.length
      omega
    have live := keep_live (p := s.backing.getD i 0) (i := i)
      (s := ⟨s.backing, s.remaining, s.heap.set (s.backing.getD i 0) e, firstErr, calls⟩)
      room inv.compact
    rw [Loop.state, live]
    simp only [Loop.keep, map_append, map_cons]
    rw [map_view_set e (fun h => next.1 (mem_append_left _ h)),
      map_view_set e (fun h => next.1 (mem_append_right _ h)), view_set_self inHeap]
  simp only [Outbox.flushEntry] at ok
  split at ok
  · contradiction
  rename_i msg built
  have linear : LinearFor (s.entryAt i).job msg := message_linearFor built
  rw [before]
  split at ok
  next accepted =>
    cases ok
    refine ⟨?_, inv.skip hi s.heap s.firstErr _ rfl (fun _ _ => rfl), ?_⟩
    · rw [Loop.state, Loop.live, map_append, accepted]
      exact steps_accept issued _ _ s.calls linear
    · simp [Outbox.leaves, accepted]
  rename_i err rejected
  split at ok
  next exhausted =>
    have reached : o.limit ≤ (s.entryAt i).attempts + 1 := limit_le exhausted.1
    have dead := dlqMessage_deadFor { s.entryAt i with attempts := (s.entryAt i).attempts + 1 }
      exhausted.2 err
    split at ok
    · rename_i buried
      cases ok
      refine ⟨?_, inv.skip hi _ _ _ (length_set ..) (unchanged _), ?_⟩
      · rw [gone, rejected, buried]
        exact steps_bury issued _ _ s.calls linear err reached dead
      · have := exhausted.1
        simp [Outbox.leaves, rejected, buried, exhausted.2]
        omega
    · rename_i dlqErr failed
      cases ok
      refine ⟨?_, inv.keep hi _ _ _ (length_set ..) (unchanged _), ?_⟩
      · rw [kept, rejected, failed]
        exact steps_keep issued _ _ s.calls linear err dlqErr reached dead
      · simp [Outbox.leaves, rejected, failed, Loop.keep]
  next below =>
    cases ok
    refine ⟨?_, inv.keep hi _ _ _ (length_set ..) (unchanged _), ?_⟩
    · rw [kept, rejected]
      exact steps_reject issued _ _ s.calls linear err
    · have stays : o.leaves (s.entryAt i) a = false := by
        have : ¬ (o.max ≤ ((s.entryAt i).attempts : Int) + 1 ∧ o.dlq ≠ "") := by
          simpa using below
        simp only [Outbox.leaves, rejected]
        grind
      simp [stays, Loop.keep]

/-- Whether a message can be built: nothing but the security headers can fail. -/
def builds (security : Option SecurityOptions) (c : Crypto) : Bool :=
  match security with
  | none => true
  | some s => (!s.enablePQC || c.ephemeralPQCLinearKey.isOk) && (!s.dpopKey || c.dpopProof.isOk)

theorem message_isOk (e : OutboxEntry) (security : Option SecurityOptions) (c : Crypto) :
    (e.message security c).isOk = builds security c := by
  cases security with
  | none => rfl
  | some s =>
    obtain ⟨enablePQC, dpopKey⟩ := s
    obtain ⟨pqcKey, proof⟩ := c
    cases enablePQC <;> cases dpopKey <;> cases pqcKey <;> cases proof <;> rfl

theorem flushEntry_isOk (o : Outbox) (a : FlushAttempt) (i : Nat) (s : Loop) :
    (o.flushEntry a i s).isOk = builds o.security a.crypto := by
  rw [← message_isOk (s.entryAt i)]
  simp only [Outbox.flushEntry]
  split
  next built =>
    rw [built]
    rfl
  rename_i built
  rw [built]
  split
  · rfl
  · split
    · split <;> rfl
    · rfl

def Outbox.entryAt (o : Outbox) (i : Nat) : OutboxEntry :=
  o.heap.getD (o.entries.getD i 0) default

theorem LoopInv.entryAt (inv : LoopInv o i s) (hi : i < o.entries.length) :
    s.entryAt i = o.entryAt i := by
  have bound : i < s.backing.length := inv.length ▸ hi
  have ahead := inv.ahead
  rw [inv.entry_mem hi, drop_eq_getElem_cons hi] at ahead
  have head : s.backing.getD i 0 = o.entries.getD i 0 := by
    rw [(List.cons.inj ahead).1, getD_eq_getElem _ _ hi]
  rw [Loop.entryAt, head]
  apply inv.fresh
  rw [drop_eq_getElem_cons hi, getD_eq_getElem _ _ hi]
  exact mem_cons_self

/-- What the loop has done when it stops: it stands at index `k`, behind the last entry or at
the first one whose message it could not build. The prefix is as long as the part it has read
exactly when no entry has left. -/
structure LoopEnd (o : Outbox) (f : Nat → FlushAttempt) (issued : List Job) (i : Nat) (s : Loop)
    (k : Nat) (r : Loop × Option String) : Prop where
  steps : Steps o.limit o.effectiveDlq (s.state issued i) (r.1.state issued k)
  inv : LoopInv o k r.1
  from_le : i ≤ k
  to_le : k ≤ o.entries.length
  built : ∀ j, i ≤ j → j < k → builds o.security (f j).crypto
  finished : r.2 = none → k = o.entries.length
  stopped : r.2 ≠ none → k < o.entries.length ∧ builds o.security (f k).crypto = false
  shrinks : r.1.remaining + i ≤ s.remaining + k
  tight : r.1.remaining + i = s.remaining + k ↔
    ∀ j, i ≤ j → j < k → o.leaves (o.entryAt j) (f j) = false

theorem flushLoop_spec (f : Nat → FlushAttempt) (issued : List Job) {n : Nat} (inv : LoopInv o i s)
    (size : i + n = o.entries.length) : ∃ k, LoopEnd o f issued i s k (o.flushLoop f n i s) := by
  induction n generalizing i s with
  | zero =>
    refine ⟨i, .refl, inv, le_refl i, by omega, by omega, fun _ => by omega, ?_, le_refl _, ?_⟩
    · intro h
      exact absurd rfl h
    · simp only [Outbox.flushLoop, true_iff]
      omega
  | succ n ih =>
    have hi : i < o.entries.length := by omega
    have built := flushEntry_isOk o (f i) i s
    simp only [Outbox.flushLoop]
    split
    next buildErr failed =>
      rw [failed] at built
      refine ⟨i, .refl, inv, le_refl i, by omega, by omega, by simp, ?_, le_refl _, ?_⟩
      · exact fun _ => ⟨hi, built.symm⟩
      · simp only [true_iff]
        omega
    rename_i t ok
    rw [ok] at built
    obtain ⟨step, next, remaining⟩ := flushEntry_spec inv hi (f i) ok issued
    rw [inv.entryAt hi] at remaining
    obtain ⟨k, tail⟩ := ih next (by omega)
    have := tail.from_le
    have := tail.shrinks
    have shrinks : (if o.leaves (o.entryAt i) (f i) = true then 0 else 1) ≤ 1 := by
      split <;> omega
    refine ⟨k, step.trans tail.steps, tail.inv, by omega, tail.to_le, ?_, tail.finished,
      tail.stopped, by omega, ?_⟩
    · intro j hij hjk
      rcases eq_or_lt_of_le hij with rfl | hij
      · exact built.symm
      · exact tail.built j hij hjk
    · constructor
      · intro same j hij hjk
        rcases eq_or_lt_of_le hij with rfl | hij
        · by_contra left
          simp only [Bool.not_eq_false] at left
          rw [if_pos left] at remaining
          omega
        · exact tail.tight.mp (by omega) j hij hjk
      · intro stay
        have here := stay i (le_refl i) (by omega)
        have rest := tail.tight.mpr (fun j hij hjk => stay j (by omega) hjk)
        simp only [here, Bool.false_eq_true, if_false] at remaining
        omega

abbrev World := Client.World Outbox

inductive Op where
  | enqueueLinear (subject : String) (payload : List UInt8) (ttl : Int)
  | flush (answers : Nat → FlushAttempt)

def World.new (pub : Bool) (opts : OutboxOptions) : World := ⟨newOutbox pub opts, [], []⟩

def World.step (w : World) : Op → World
  | .enqueueLinear subject payload ttl =>
    let (box, id) := w.box.enqueueLinear subject payload ttl
    { w with box, issued := w.issued ++ [⟨id, subject, payload⟩] }
  | .flush answers =>
    let (box, calls, _) := w.box.flush answers w.calls
    { w with box, calls }

def World.state (w : World) : State :=
  ⟨w.issued, w.box.entries.map (view w.box.heap), w.calls⟩

/-- Once an entry leaves in a flush, every later message of that flush can be built. -/
def BuildsAfterLeaving (w : World) : Op → Prop
  | .enqueueLinear .. => True
  | .flush answers => w.box.pub = true → ∀ i < w.box.entries.length, ∀ k < i,
      (∀ j ≤ k, builds w.box.security (answers j).crypto = true) →
      w.box.leaves (w.box.entryAt k) (answers k) = true →
      builds w.box.security (answers i).crypto = true

structure World.Sound (w : World) : Prop where
  counter : w.box.nextID = w.issued.length
  nodup : w.box.entries.Nodup
  bound : ∀ p ∈ w.box.entries, p < w.box.heap.length
  law : Law w.box.limit w.box.effectiveDlq w.state

theorem sound_new (pub : Bool) (opts : OutboxOptions) : (World.new pub opts).Sound where
  counter := rfl
  nodup := nodup_nil
  bound := by simp [World.new, newOutbox]
  law := law_initial _ _

theorem view_append (bound : p < heap.length) (e : OutboxEntry) :
    view (heap ++ [e]) p = view heap p := by
  simp [view, getElem?_append_left bound]

theorem view_length (heap : List OutboxEntry) (e : OutboxEntry) :
    view (heap ++ [e]) heap.length = (e.job, e.attempts) := by
  simp [view]

variable {w : World}

theorem state_enqueueLinear (sound : w.Sound) (subject : String) (payload : List UInt8)
    (ttl : Int) :
    (w.step (.enqueueLinear subject payload ttl)).state = w.state.enqueue subject payload := by
  have old : w.box.entries.map (view (w.box.heap ++
      [⟨Nat.repr (w.box.nextID + 1), subject, payload, ttl, 0⟩])) =
      w.box.entries.map (view w.box.heap) :=
    map_congr_left (fun p hp => view_append (sound.bound p hp) _)
  simp only [World.state, World.step, Outbox.enqueueLinear, map_append, map_cons,
    map_nil, old, view_length, State.enqueue]
  rw [sound.counter]
  rfl

theorem sound_enqueueLinear (sound : w.Sound) (subject : String) (payload : List UInt8)
    (ttl : Int) : (w.step (.enqueueLinear subject payload ttl)).Sound where
  counter := by simp [World.step, Outbox.enqueueLinear, sound.counter]
  nodup := by
    simp only [World.step, Outbox.enqueueLinear]
    refine sound.nodup.append (nodup_singleton _) ?_
    intro p hp hq
    have := sound.bound p hp
    have : p = w.box.heap.length := by simpa using hq
    omega
  bound := by
    intro p hp
    simp only [World.step, Outbox.enqueueLinear, length_append, length_cons, length_nil] at hp ⊢
    rcases mem_append.mp hp with hp | hp
    · have := sound.bound p hp
      omega
    · have : p = w.box.heap.length := by simpa using hp
      omega
  law := by
    rw [state_enqueueLinear sound]
    exact law_enqueue sound.law subject payload

def World.loop (w : World) : Loop := ⟨w.box.entries, 0, w.box.heap, none, w.calls⟩

theorem loop_remaining (w : World) : w.loop.remaining = 0 := rfl

theorem loop_state (w : World) : w.loop.state w.issued 0 = w.state := rfl

theorem World.Sound.loopInv (sound : w.Sound) : LoopInv w.box 0 w.loop where
  compact := le_refl 0
  length := rfl
  nodup := sound.nodup
  bound := sound.bound
  ahead := rfl
  fresh := fun _ _ => rfl

theorem flush_world (sound : w.Sound) (pub : w.box.pub = true) (answers : Nat → FlushAttempt) :
    ∃ k r, LoopEnd w.box answers w.issued 0 w.loop k r ∧
      w.step (.flush answers) =
        { w with
          box := { w.box with
            entries := if r.2 = none then r.1.backing.take r.1.remaining else r.1.backing,
            heap := r.1.heap },
          calls := r.1.calls } := by
  obtain ⟨k, stop⟩ := flushLoop_spec answers w.issued sound.loopInv (zero_add _)
  refine ⟨k, _, stop, ?_⟩
  rcases hr : w.box.flushLoop answers w.box.entries.length 0 w.loop with ⟨s, _ | buildErr⟩
  · rw [World.loop] at hr
    simp [World.step, Outbox.flush, pub, hr]
  · rw [World.loop] at hr
    simp [World.step, Outbox.flush, pub, hr]

theorem flush_silent (silent : w.box.pub = false) (answers : Nat → FlushAttempt) :
    w.step (.flush answers) = w := by
  simp [World.step, Outbox.flush, silent]

/-- The loop's end covers the whole array exactly when the flush ran through or let nobody go. -/
theorem LoopEnd.live_eq {f : Nat → FlushAttempt} {issued : List Job} {k : Nat}
    {r : Loop × Option String} (stop : LoopEnd o f issued 0 s k r) (empty : s.remaining = 0)
    (tight : r.2 ≠ none → ∀ j < k, o.leaves (o.entryAt j) (f j) = false) :
    r.1.live k = if r.2 = none then r.1.backing.take r.1.remaining else r.1.backing := by
  by_cases finished : r.2 = none
  · have size : k = r.1.backing.length := by
      rw [stop.inv.length, stop.finished finished]
    rw [if_pos finished, Loop.live, size, drop_length, append_nil]
  · have stay := stop.tight.mpr (fun j _ hj => tight finished j hj)
    have same : r.1.remaining = k := by omega
    rw [if_neg finished, Loop.live, same, take_append_drop]

theorem sound_flush (sound : w.Sound) (answers : Nat → FlushAttempt)
    (ok : BuildsAfterLeaving w (.flush answers)) : (w.step (.flush answers)).Sound := by
  cases pub : w.box.pub with
  | false =>
    rw [flush_silent pub]
    exact sound
  | true =>
    obtain ⟨k, r, stop, world⟩ := flush_world sound pub answers
    have live := stop.live_eq rfl (by
      intro failed j hj
      obtain ⟨inside, unbuilt⟩ := stop.stopped failed
      by_contra left
      simp only [Bool.not_eq_false] at left
      have := ok pub k inside j hj
        (fun m hm => stop.built m (Nat.zero_le m) (by omega)) left
      simp [unbuilt] at this)
    have law := law_steps sound.law (loop_state w ▸ stop.steps)
    rw [world, ← live]
    exact ⟨sound.counter, stop.inv.nodup, stop.inv.bound, law⟩

/-- A flush outside the condition leaves the old array over the compacted one, so it holds more
entries than the calls leave pending. -/
theorem flush_breaks (sound : w.Sound) (answers : Nat → FlushAttempt)
    (refused : ¬ BuildsAfterLeaving w (.flush answers)) :
    ¬ Conserves w.box.effectiveDlq (w.step (.flush answers)).state := by
  simp only [BuildsAfterLeaving, not_forall] at refused
  obtain ⟨pub, i, hi, j, hj, before, left, unbuilt⟩ := refused
  obtain ⟨k, r, stop, world⟩ := flush_world sound pub answers
  have law := law_steps sound.law (loop_state w ▸ stop.steps)
  have failed : r.2 ≠ none := by
    intro finished
    have := stop.finished finished
    exact unbuilt (stop.built i (Nat.zero_le i) (by omega))
  obtain ⟨inside, first⟩ := stop.stopped failed
  have later : j < k := by
    by_contra notLater
    have := before k (by omega)
    simp [first] at this
  have loose : r.1.remaining < k := by
    have shrinks := stop.shrinks
    have tight := stop.tight
    simp only [loop_remaining, add_zero, zero_add] at shrinks tight
    refine lt_of_le_of_ne shrinks (fun same => ?_)
    have := tight.mp same j (Nat.zero_le j) later
    simp [left] at this
  intro promise
  rw [world, if_neg failed] at promise
  have size := law.pending_length promise
  simp only [Loop.state, Loop.live, length_map, length_append, length_take, length_drop] at size
  have := stop.inv.length
  omega

theorem step_config (w : World) (op : Op) :
    (w.step op).box.limit = w.box.limit ∧ (w.step op).box.effectiveDlq = w.box.effectiveDlq ∧
      (w.step op).box.security = w.box.security := by
  cases op with
  | enqueueLinear => exact ⟨rfl, rfl, rfl⟩
  | flush answers =>
    simp only [World.step, Outbox.flush, Outbox.limit, Outbox.effectiveDlq]
    split
    · split <;> exact ⟨rfl, rfl, rfl⟩
    · exact ⟨rfl, rfl, rfl⟩

theorem sound_step (w : World) (op : Op) (sound : w.Sound) (ok : BuildsAfterLeaving w op) :
    (w.step op).Sound := by
  cases op with
  | enqueueLinear subject payload ttl => exact sound_enqueueLinear sound subject payload ttl
  | flush answers => exact sound_flush sound answers ok

/-- Every job is in exactly one place after every call exactly when no flush loses the ability
to build messages after an entry has left it. -/
theorem conserves_iff_buildsAfterLeaving (pub : Bool) (opts : OutboxOptions) (ops : List Op) :
    (∀ n, Conserves (newOutbox pub opts).effectiveDlq
      (run World.step (World.new pub opts) (ops.take n)).state) ↔
    Along World.step BuildsAfterLeaving (World.new pub opts) ops := by
  apply always_iff_along World.step BuildsAfterLeaving
    (fun w => w.Sound ∧ w.box.effectiveDlq = (newOutbox pub opts).effectiveDlq)
    (fun w => Conserves (newOutbox pub opts).effectiveDlq w.state)
  · rintro w ⟨sound, dlq⟩
    exact dlq ▸ sound.law.conserves
  · rintro w op ⟨sound, dlq⟩ ok
    exact ⟨sound_step w op sound ok, (step_config w op).2.1.trans dlq⟩
  · rintro w op ⟨sound, dlq⟩ refused
    cases op with
    | enqueueLinear => exact absurd trivial refused
    | flush answers => exact dlq ▸ flush_breaks sound answers refused
  · exact ⟨sound_new pub opts, rfl⟩

def Op.Builds (security : Option SecurityOptions) : Op → Prop
  | .enqueueLinear .. => True
  | .flush answers => ∀ i, builds security (answers i).crypto = true

theorem law_run (pub : Bool) (opts : OutboxOptions) {ops : List Op}
    (built : ∀ op ∈ ops, op.Builds opts.security) :
    Law (newOutbox pub opts).limit (newOutbox pub opts).effectiveDlq
      (run World.step (World.new pub opts) ops).state := by
  have sound : ∀ w : World, ∀ op : Op,
      (w.Sound ∧ w.box.limit = (newOutbox pub opts).limit ∧
        w.box.effectiveDlq = (newOutbox pub opts).effectiveDlq ∧ w.box.security = opts.security) →
      op.Builds opts.security →
      ((w.step op).Sound ∧ (w.step op).box.limit = (newOutbox pub opts).limit ∧
        (w.step op).box.effectiveDlq = (newOutbox pub opts).effectiveDlq ∧
        (w.step op).box.security = opts.security) := by
    rintro w op ⟨sound, limit, dlq, security⟩ builds
    obtain ⟨sameLimit, sameDlq, sameSecurity⟩ := step_config w op
    refine ⟨sound_step w op sound ?_, sameLimit.trans limit, sameDlq.trans dlq,
      sameSecurity.trans security⟩
    cases op with
    | enqueueLinear => trivial
    | flush answers =>
      intro _ i _ _ _ _ _
      rw [security]
      exact builds i
  obtain ⟨final, limit, dlq, _⟩ := along_invariant World.step _ _ sound
    ⟨sound_new pub opts, rfl, rfl, rfl⟩ ops (along_of_forall World.step _ built)
  exact limit ▸ dlq ▸ final.law

/-- The publisher accepts both entries, but the proof for the second one cannot be signed. -/
def proofFailsSecond (i : Nat) : FlushAttempt :=
  { publish := none, dlq := none,
    crypto := ⟨.ok "key", if i = 1 then .error "no entropy" else .ok "proof"⟩ }

def signedOutbox : World := World.new true ⟨3, "", some ⟨false, true⟩⟩

def publishThenFail : List Op :=
  [.enqueueLinear "orders" [1] 0, .enqueueLinear "orders" [2] 0, .flush proofFailsSecond]

/-- The first entry was accepted and is still queued; one more flush publishes it again. -/
theorem flush_publishes_again :
    ¬ Conserves none (run World.step signedOutbox publishThenFail).state ∧
      settled (run World.step signedOutbox
        (publishThenFail ++ [.flush (fun _ => proofFailsSecond 0)])).calls = ["1", "1", "2"] := by
  refine ⟨?_, by decide⟩
  intro promise
  have once := promise.count (show "1" ∈ State.issuedIds _ by decide)
  revert once
  decide

end LinearNats.Client.Go
