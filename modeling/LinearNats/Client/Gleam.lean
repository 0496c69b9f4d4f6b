import LinearNats.Client.Outbox

/-! The Gleam outbox. It publishes nothing itself: the caller reports the outcome of each publish
by id, in any order and with any id, and gets the dead letter to send as a command. -/
namespace LinearNats.Client.Gleam
open List

structure SecurityEvidence where
  pqcPublicKey : Option String
  dpopProof : Option String
  deriving DecidableEq, Repr

structure OutboxConfig where
  maxAttempts : Int
  dlqSubject : Option String
  security : SecurityEvidence
  deriving DecidableEq, Repr

structure OutboxEntry where
  id : String
  subject : String
  payload : String
  ttlMilliseconds : Option Int
  attempts : Int
  deriving DecidableEq, Repr

structure Outbox where
  nextId : Int
  config : OutboxConfig
  entries : List OutboxEntry
  deriving DecidableEq, Repr

structure PublishCommand where
  subject : String
  headers : List (String × String)
  payload : String
  deriving DecidableEq, Repr

def newOutbox (maxAttempts : Int) (dlqSubject : Option String) (security : SecurityEvidence) :
    Outbox :=
  let attempts := if maxAttempts < 1 then 1 else maxAttempts
  ⟨0, ⟨attempts, dlqSubject, security⟩, []⟩

def enqueueLinear (outbox : Outbox) (subject payload : String) (ttlMilliseconds : Option Int) :
    Outbox × String :=
  let id := Int.repr (outbox.nextId + 1)
  let entry : OutboxEntry := ⟨id, subject, payload, ttlMilliseconds, 0⟩
  ({ outbox with nextId := outbox.nextId + 1, entries := outbox.entries ++ [entry] }, id)

def headerValue {α : Type} [DecidableEq α] : List (α × α) → α → Option α
  | [], _ => none
  | (candidate, value) :: rest, key =>
    if candidate = key then some value else headerValue rest key

def dlqHeaders (entry : OutboxEntry) (reason : String) : List (String × String) :=
  [(linearOutboxIDHeader, entry.id), (linearDLQOriginalSubjectHeader, entry.subject),
    (linearDLQReasonHeader, reason)]

def removeEntry : List OutboxEntry → String → List OutboxEntry
  | [], _ => []
  | entry :: rest, id => if entry.id = id then rest else entry :: removeEntry rest id

def popEntry : List OutboxEntry → String → Option (OutboxEntry × List OutboxEntry)
  | [], _ => none
  | entry :: rest, id =>
    if entry.id = id then some (entry, rest)
    else
      match popEntry rest id with
      | none => none
      | some (found, remaining) => some (found, entry :: remaining)

def acknowledgePublished (outbox : Outbox) (id : String) : Outbox :=
  { outbox with entries := removeEntry outbox.entries id }

def failPublish (outbox : Outbox) (id reason : String) : Outbox × Option PublishCommand :=
  match popEntry outbox.entries id with
  | none => (outbox, none)
  | some (entry, remaining) =>
    let attempts := entry.attempts + 1
    let updated := { entry with attempts }
    match decide (outbox.config.maxAttempts ≤ attempts), outbox.config.dlqSubject with
    | true, some dlqSubject =>
      ({ outbox with entries := remaining },
        some ⟨dlqSubject, dlqHeaders updated reason, updated.payload⟩)
    | _, _ => ({ outbox with entries := remaining ++ [updated] }, none)

/-! What the two removals do to a list: the first entry of the id goes, the rest stays. -/

structure FirstOf (entries : List OutboxEntry) (id : String) (xs : List OutboxEntry)
    (entry : OutboxEntry) (ys : List OutboxEntry) : Prop where
  split : entries = xs ++ entry :: ys
  found : entry.id = id
  first : ∀ e ∈ xs, e.id ≠ id

theorem popEntry_cases (entries : List OutboxEntry) (id : String) :
    (popEntry entries id = none ∧ removeEntry entries id = entries ∧ ∀ e ∈ entries, e.id ≠ id) ∨
    ∃ xs entry ys, FirstOf entries id xs entry ys ∧
      popEntry entries id = some (entry, xs ++ ys) ∧ removeEntry entries id = xs ++ ys := by
  induction entries with
  | nil => exact .inl ⟨rfl, rfl, by simp⟩
  | cons entry rest ih =>
    by_cases here : entry.id = id
    · refine .inr ⟨[], entry, rest, ⟨rfl, here, by simp⟩, ?_, ?_⟩
      · simp [popEntry, here]
      · simp [removeEntry, here]
    rcases ih with ⟨absent, same, none⟩ | ⟨xs, found, ys, first, popped, removed⟩
    · exact .inl ⟨by simp [popEntry, here, absent], by simp [removeEntry, here, same],
        forall_mem_cons.mpr ⟨here, none⟩⟩
    · refine .inr ⟨entry :: xs, found, ys, ⟨by rw [first.split]; rfl, first.found, ?_⟩, ?_, ?_⟩
      · exact forall_mem_cons.mpr ⟨here, first.first⟩
      · simp [popEntry, here, popped]
      · simp [removeEntry, here, removed]

theorem failPublish_cases (outbox : Outbox) (id reason : String) :
    ((∀ e ∈ outbox.entries, e.id ≠ id) ∧ failPublish outbox id reason = (outbox, none)) ∨
    ∃ xs entry ys, FirstOf outbox.entries id xs entry ys ∧
      ((∃ dlqSubject, outbox.config.dlqSubject = some dlqSubject ∧
        outbox.config.maxAttempts ≤ entry.attempts + 1 ∧
        failPublish outbox id reason = ({ outbox with entries := xs ++ ys },
          some ⟨dlqSubject, dlqHeaders { entry with attempts := entry.attempts + 1 } reason,
            entry.payload⟩)) ∨
      ((outbox.config.dlqSubject = none ∨ entry.attempts + 1 < outbox.config.maxAttempts) ∧
        failPublish outbox id reason =
          ({ outbox with entries := xs ++ ys ++ [{ entry with attempts := entry.attempts + 1 }] },
            none))) := by
  rcases popEntry_cases outbox.entries id with ⟨absent, _, none⟩ | ⟨xs, entry, ys, first, popped, _⟩
  · exact .inl ⟨none, by simp [failPublish, absent]⟩
  refine .inr ⟨xs, entry, ys, first, ?_⟩
  simp only [failPublish, popped]
  cases dlq : outbox.config.dlqSubject with
  | none => exact .inr ⟨.inl rfl, by
      cases decide (outbox.config.maxAttempts ≤ entry.attempts + 1) <;> rfl⟩
  | some dlqSubject =>
    by_cases reached : outbox.config.maxAttempts ≤ entry.attempts + 1
    · exact .inl ⟨dlqSubject, rfl, reached, by simp [reached]⟩
    · exact .inr ⟨.inr (by omega), by simp [reached]⟩

theorem acknowledgePublished_others (outbox : Outbox) (id : String) :
    (acknowledgePublished outbox id).entries.filter (fun e => e.id ≠ id) =
      outbox.entries.filter (fun e => e.id ≠ id) := by
  simp only [acknowledgePublished]
  rcases popEntry_cases outbox.entries id with ⟨_, same, _⟩ | ⟨xs, entry, ys, first, _, removed⟩
  · rw [same]
  · rw [removed, first.split]
    simp [first.found]

theorem failPublish_others (outbox : Outbox) (id reason : String) :
    (failPublish outbox id reason).1.entries.filter (fun e => e.id ≠ id) =
      outbox.entries.filter (fun e => e.id ≠ id) := by
  rcases failPublish_cases outbox id reason with
    ⟨_, same⟩ | ⟨xs, entry, ys, first, ⟨dlqSubject, _, _, buried⟩ | ⟨_, kept⟩⟩
  · rw [same]
  · rw [buried, first.split]
    simp [first.found]
  · rw [kept, first.split]
    simp [first.found]

/-- The outbox with what its caller has seen: the ids issued, those whose acknowledgement removed
an entry, and the dead letters handed out. -/
structure World where
  outbox : Outbox
  issued : List String
  acknowledged : List String
  deadLetters : List PublishCommand

inductive Op where
  | enqueueLinear (subject payload : String) (ttlMilliseconds : Option Int)
  | acknowledgePublished (id : String)
  | failPublish (id reason : String)

def entryIds (entries : List OutboxEntry) : List String := entries.map OutboxEntry.id

def World.new (maxAttempts : Int) (dlqSubject : Option String) (security : SecurityEvidence) :
    World :=
  ⟨newOutbox maxAttempts dlqSubject security, [], [], []⟩

def World.step (w : World) : Op → World
  | .enqueueLinear subject payload ttl =>
    let (outbox, id) := enqueueLinear w.outbox subject payload ttl
    { w with outbox, issued := w.issued ++ [id] }
  | .acknowledgePublished id =>
    { w with
      outbox := acknowledgePublished w.outbox id
      acknowledged := if id ∈ entryIds w.outbox.entries then w.acknowledged ++ [id]
        else w.acknowledged }
  | .failPublish id reason =>
    let (outbox, command) := failPublish w.outbox id reason
    { w with outbox, deadLetters := w.deadLetters ++ command.toList }

def PublishCommand.outboxId (c : PublishCommand) : Option String :=
  headerValue c.headers linearOutboxIDHeader

theorem dlqHeaders_outboxId (dlqSubject payload reason : String) (entry : OutboxEntry) :
    PublishCommand.outboxId ⟨dlqSubject, dlqHeaders entry reason, payload⟩ = some entry.id := rfl

def World.pendingCount (w : World) (id : String) : Nat := (entryIds w.outbox.entries).count id

def World.deadCount (w : World) (id : String) : Nat :=
  w.deadLetters.countP (fun c => c.outboxId == some id)

/-- Pending once, acknowledged, or in one dead letter, and nowhere else. -/
def InOnePlace (w : World) (id : String) : Prop :=
  (w.pendingCount id = 1 ∧ id ∉ w.acknowledged ∧ w.deadCount id = 0) ∨
  (w.pendingCount id = 0 ∧ id ∈ w.acknowledged ∧ w.deadCount id = 0) ∨
  (w.pendingCount id = 0 ∧ id ∉ w.acknowledged ∧ w.deadCount id = 1)

structure World.Sound (w : World) : Prop where
  nodup : w.issued.Nodup
  numbered : ∀ id ∈ w.issued, ∃ n, n ≤ w.outbox.nextId ∧ id = Int.repr n
  conserved : ∀ id, w.pendingCount id + w.acknowledged.count id + w.deadCount id =
    w.issued.count id
  attempts : w.outbox.config.dlqSubject ≠ none →
    ∀ e ∈ w.outbox.entries, e.attempts < w.outbox.config.maxAttempts
  positive : 1 ≤ w.outbox.config.maxAttempts

theorem sound_new (maxAttempts : Int) (dlqSubject : Option String) (security : SecurityEvidence) :
    (World.new maxAttempts dlqSubject security).Sound where
  nodup := nodup_nil
  numbered := by simp [World.new]
  conserved := fun _ => rfl
  attempts := by simp [World.new, newOutbox]
  positive := by
    simp only [World.new, newOutbox]
    split <;> omega

variable {w : World} {id : String}

theorem sound_enqueueLinear (sound : w.Sound) (subject payload : String) (ttl : Option Int) :
    (w.step (.enqueueLinear subject payload ttl)).Sound := by
  have fresh : Int.repr (w.outbox.nextId + 1) ∉ w.issued := by
    intro mem
    obtain ⟨n, le, same⟩ := sound.numbered _ mem
    have := Int.repr_injective same
    omega
  constructor
  · exact sound.nodup.append (nodup_singleton _) (by simpa using fresh)
  · intro id hid
    rcases mem_append.mp hid with hid | hid
    · obtain ⟨n, le, same⟩ := sound.numbered id hid
      exact ⟨n, le.trans (by simp [World.step, enqueueLinear]), same⟩
    · exact ⟨w.outbox.nextId + 1, le_refl _, by simpa using hid⟩
  · intro id
    have := sound.conserved id
    simp only [World.pendingCount, World.deadCount, entryIds, World.step, enqueueLinear,
      map_append, count_append, map_cons, map_nil] at this ⊢
    omega
  · intro dlq
    refine forall_mem_append.mpr ⟨sound.attempts dlq, forall_mem_singleton.mpr ?_⟩
    have positive := sound.positive
    simp only [World.step, enqueueLinear]
    omega
  · exact sound.positive

section

variable {entries xs ys : List OutboxEntry} {entry : OutboxEntry}
  (first : FirstOf entries id xs entry ys)

include first

theorem FirstOf.count (other : String) :
    (entryIds entries).count other =
      (entryIds (xs ++ ys)).count other + if id = other then 1 else 0 := by
  rw [first.split]
  simp only [entryIds, map_append, map_cons, count_append, count_cons, first.found, beq_iff_eq]
  omega

theorem FirstOf.mem {e : OutboxEntry} (he : e ∈ xs ++ ys) : e ∈ entries := by
  rw [first.split]
  exact ((sublist_cons_self entry ys).append_left xs).subset he

end

theorem sound_acknowledgePublished (sound : w.Sound) (id : String) :
    (w.step (.acknowledgePublished id)).Sound := by
  rcases popEntry_cases w.outbox.entries id with ⟨_, same, none⟩ | ⟨xs, entry, ys, first, _, removed⟩
  · have absent : id ∉ entryIds w.outbox.entries := by
      intro mem
      obtain ⟨e, he, found⟩ := mem_map.mp mem
      exact none e he found
    have idle : w.step (.acknowledgePublished id) = w := by
      simp [World.step, acknowledgePublished, same, absent]
    rw [idle]
    exact sound
  · have present : id ∈ entryIds w.outbox.entries := by
      rw [first.split]
      simp [entryIds, first.found]
    constructor
    · exact sound.nodup
    · exact sound.numbered
    · intro other
      have total := sound.conserved other
      simp only [World.pendingCount, first.count other, World.deadCount] at total
      simp only [World.step, World.pendingCount, World.deadCount, acknowledgePublished, removed,
        if_pos present, count_append, count_singleton, beq_iff_eq]
      omega
    · intro dlq e he
      simp only [World.step, acknowledgePublished, removed] at he
      exact sound.attempts dlq e (first.mem he)
    · exact sound.positive

theorem sound_failPublish (sound : w.Sound) (id reason : String) :
    (w.step (.failPublish id reason)).Sound := by
  rcases failPublish_cases w.outbox id reason with
    ⟨_, same⟩ | ⟨xs, entry, ys, first, ⟨dlqSubject, _, _, buried⟩ | ⟨below, kept⟩⟩
  · have idle : w.step (.failPublish id reason) = w := by simp [World.step, same]
    rw [idle]
    exact sound
  · have step : w.step (.failPublish id reason) = { w with
        outbox := { w.outbox with entries := xs ++ ys }
        deadLetters := w.deadLetters ++ [⟨dlqSubject,
          dlqHeaders { entry with attempts := entry.attempts + 1 } reason, entry.payload⟩] } := by
      simp [World.step, buried]
    rw [step]
    refine { sound with conserved := ?_, attempts := ?_ }
    · intro other
      have total := sound.conserved other
      simp only [World.pendingCount, first.count other, World.deadCount] at total
      simp only [World.pendingCount, World.deadCount, countP_append, countP_singleton,
        dlqHeaders_outboxId, first.found, beq_iff_eq, Option.some.injEq]
      omega
    · intro dlq e he
      exact sound.attempts dlq e (first.mem he)
  · have step : w.step (.failPublish id reason) = { w with
        outbox := { w.outbox with
          entries := xs ++ ys ++ [{ entry with attempts := entry.attempts + 1 }] } } := by
      simp [World.step, kept]
    rw [step]
    refine { sound with conserved := ?_, attempts := ?_ }
    · intro other
      have total := sound.conserved other
      simp only [World.pendingCount, first.count other, World.deadCount] at total
      simp only [World.pendingCount, World.deadCount, entryIds, map_append, map_cons,
        map_nil, count_append, count_singleton, first.found, beq_iff_eq] at total ⊢
      omega
    · intro dlq
      refine forall_mem_append.mpr ⟨fun e he => sound.attempts dlq e (first.mem he), ?_⟩
      exact forall_mem_singleton.mpr (below.resolve_left dlq)

theorem sound_step (w : World) (op : Op) (sound : w.Sound) : (w.step op).Sound := by
  cases op with
  | enqueueLinear subject payload ttl => exact sound_enqueueLinear sound subject payload ttl
  | acknowledgePublished id => exact sound_acknowledgePublished sound id
  | failPublish id reason => exact sound_failPublish sound id reason

theorem World.Sound.inOnePlace (sound : w.Sound) (hid : id ∈ w.issued) : InOnePlace w id := by
  have one : w.issued.count id = 1 := count_eq_one_of_mem sound.nodup hid
  have total := sound.conserved id
  have acknowledged : id ∈ w.acknowledged ↔ 0 < w.acknowledged.count id :=
    count_pos_iff.symm
  simp only [InOnePlace, acknowledged]
  omega

theorem World.Sound.pending_nodup (sound : w.Sound) : (entryIds w.outbox.entries).Nodup := by
  rw [nodup_iff_count_le_one]
  intro id
  have total := sound.conserved id
  have once := nodup_iff_count_le_one.mp sound.nodup id
  simp only [World.pendingCount] at total
  omega

/-- For every run: each issued id is in exactly one place, the pending ids are distinct, no
pending entry has used up its attempts while a DLQ subject is set, and a report about one id
leaves every other entry as it is. -/
theorem outbox_ids_in_one_place (maxAttempts : Int) (dlqSubject : Option String)
    (security : SecurityEvidence) (ops : List Op) :
    let w := run World.step (World.new maxAttempts dlqSubject security) ops
    (∀ id ∈ w.issued, InOnePlace w id) ∧
    (entryIds w.outbox.entries).Nodup ∧
    (w.outbox.config.dlqSubject ≠ none →
      ∀ e ∈ w.outbox.entries, e.attempts < w.outbox.config.maxAttempts) ∧
    (∀ id, (w.step (.acknowledgePublished id)).outbox.entries.filter (fun e => e.id ≠ id) =
      w.outbox.entries.filter (fun e => e.id ≠ id)) ∧
    (∀ id reason, (w.step (.failPublish id reason)).outbox.entries.filter (fun e => e.id ≠ id) =
      w.outbox.entries.filter (fun e => e.id ≠ id)) := by
  intro w
  have sound : w.Sound :=
    run_invariant World.step World.Sound sound_step (sound_new maxAttempts dlqSubject security) ops
  exact ⟨fun _ hid => sound.inOnePlace hid, sound.pending_nodup, sound.attempts,
    acknowledgePublished_others w.outbox, failPublish_others w.outbox⟩

end LinearNats.Client.Gleam
