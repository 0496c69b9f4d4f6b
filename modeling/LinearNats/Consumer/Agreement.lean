import LinearNats.Consumer.Store

/-! A consumer with explicit acknowledgements and its store have the same entries and the same floor.
Both compute the floor after an acknowledgement, each from its own entries and its own end of the
scan. -/
namespace LinearNats.JetStream
open Scan Option Consumer Table

structure Agrees (o : Consumer) : Prop where
  entries : ∀ seq, (Table.get o.store.pending seq).map Pending.sequence =
    (Table.get o.pending seq).map Pending.sequence
  floor : o.store.ackFloor.consumer = o.adflr

structure InStep (o : Consumer) : Prop extends Agrees o where
  sent : o.store.delivered.consumer + 1 = o.dseq
  within : ∀ seq, (Table.get o.pending seq).isSome = true → seq ≤ o.store.delivered.stream
  reached : o.store.delivered.stream < o.sseq
  settled : (∀ seq, Table.get o.pending seq = none) → o.adflr + 1 = o.dseq

/-! The floor. -/

section Floor

variable {a b : PendingMap}

theorem eq_nil_iff : a = [] ↔ ∀ seq, Table.get a seq = none := by
  refine ⟨fun empty seq => get_of_empty empty seq, fun none_there => ?_⟩
  cases a with
  | nil => rfl
  | cons entry rest =>
    have first := none_there entry.1
    simp [Table.get] at first

section

variable
  (same : ∀ seq, (Table.get a seq).map Pending.sequence = (Table.get b seq).map Pending.sequence)

include same

theorem same_isSome (seq : Nat) : (Table.get a seq).isSome = (Table.get b seq).isSome := by
  simpa only [isSome_map] using congrArg Option.isSome (same seq)

theorem same_nil : a = [] ↔ b = [] := by
  rw [eq_nil_iff, eq_nil_iff]
  refine forall_congr' (fun seq => ?_)
  rw [← isNone_iff_eq_none, ← isNone_iff_eq_none, ← not_isSome, ← not_isSome, same_isSome same seq]

theorem same_erase (seq other : Nat) :
    (Table.get (Table.erase a seq) other).map Pending.sequence =
      (Table.get (Table.erase b seq) other).map Pending.sequence := by
  rw [get_erase, get_erase]
  split
  · rfl
  · exact same other

/-- Scans over the same entries give the same floor, wherever they end after the last entry. -/
theorem nextFloor_congr {m n : Nat} (low : ∀ seq, (Table.get a seq).isSome = true → seq ≤ m)
    (high : ∀ seq, (Table.get b seq).isSome = true → seq ≤ n) (d s : Nat) :
    nextFloor a d s m = nextFloor b d s n := by
  have first : firstIn (fun ss => (Table.get a ss).isSome) (s + 1) m =
      firstIn (fun ss => (Table.get b ss).isSome) (s + 1) n :=
    firstIn_congr (same_isSome same) low
      (fun seq there => high seq ((same_isSome same seq).symm.trans there))
  rw [nextFloor, nextFloor, first]
  split
  · rfl
  rename_i ss _
  have entry := same ss
  cases at_a : Table.get a ss with
  | none =>
    rw [at_a] at entry
    rw [map_eq_none_iff.mp entry.symm]
  | some p =>
    rw [at_a] at entry
    obtain ⟨q, at_b, sequence⟩ := map_eq_some_iff.mp entry.symm
    rw [at_b]
    dsimp only
    rw [sequence]

end

end Floor

/-! The store's side of an acknowledgement. -/

namespace ConsumerState

variable {s : ConsumerState} {cfg : ConsumerConfig} {dseq sseq : Nat}

theorem updateAcks_absent (absent : Table.get s.pending sseq = none) :
    (s.updateAcks cfg dseq sseq).1.pending = s.pending ∧
      (s.updateAcks cfg dseq sseq).1.ackFloor = s.ackFloor ∧
      (s.updateAcks cfg dseq sseq).1.delivered = s.delivered := by
  unfold updateAcks
  dsimp only
  rw [absent]
  split
  · exact ⟨rfl, rfl, rfl⟩
  · split <;> exact ⟨rfl, rfl, rfl⟩

/-- The floor after an entry went, as the store computes it. -/
def floorWithout (s : ConsumerState) (dseq sseq : Nat) : SequencePair :=
  if Table.erase s.pending sseq = [] then s.delivered
  else if dseq = s.ackFloor.consumer + 1 then
    if dseq < s.delivered.consumer then
      nextFloor (Table.erase s.pending sseq) dseq sseq s.delivered.stream
    else ⟨dseq, sseq⟩
  else s.ackFloor

theorem ackExplicit_eq (s : ConsumerState) (sseq : Nat) (q : Pending) :
    s.ackExplicit q.sequence sseq q =
      { s with
        pending := Table.erase s.pending sseq
        ackFloor := s.floorWithout q.sequence sseq } := by
  simp only [ackExplicit, floorWithout, lt_irrefl, false_and, if_false]
  by_cases empty : Table.erase s.pending sseq = []
  · simp only [if_pos empty]
  · by_cases lowest : q.sequence = s.ackFloor.consumer + 1
    · simp only [if_neg empty, if_pos lowest]
    · simp only [if_neg empty, if_neg lowest]

theorem updateAcks_explicit (explicit : cfg.ackPolicy = .ackExplicit) {q : Pending}
    (found : Table.get s.pending sseq = some q) (new : s.ackFloor.consumer < q.sequence) :
    (s.updateAcks cfg q.sequence sseq).1 =
      { s with
        redelivered := Table.erase s.redelivered sseq
        pending := Table.erase s.pending sseq
        ackFloor := s.floorWithout q.sequence sseq } := by
  unfold updateAcks
  rw [if_neg (by rw [explicit]; decide)]
  dsimp only
  rw [if_neg (not_le.mpr new), found]
  dsimp only
  rw [if_neg (by rw [explicit]; decide), ackExplicit_eq]
  rfl

end ConsumerState

namespace InStep

variable {o o' : Consumer}

variable {seq dc : Nat} {p : Pending}

theorem same_floor (h : InStep o) (sound : Sound o) (found : Table.get o.pending seq = some p) :
    (o.store.floorWithout p.sequence seq).consumer =
      (floorAfter (Table.erase o.pending seq) o.sseq o.dseq o.adflr o.asflr p.sequence
        seq).consumer := by
  have same := same_erase h.entries seq
  have sent := h.sent
  rw [ConsumerState.floorWithout, floorAfter]
  by_cases empty : Table.erase o.pending seq = []
  · rw [if_pos ((same_nil same).mpr empty), if_pos empty]
    change o.store.delivered.consumer = o.dseq - 1
    omega
  rw [if_neg (fun none_left => empty ((same_nil same).mp none_left)), if_neg empty, h.floor]
  split
  next lowest =>
    -- Another entry is left, and it was first delivered after this one.
    have later : p.sequence < o.store.delivered.consumer := by
      by_contra last
      refine empty (eq_nil_iff.mpr (fun other => ?_))
      cases there : Table.get (Table.erase o.pending seq) other with
      | none => rfl
      | some q =>
        obtain ⟨different, at_other⟩ := get_of_erase there
        have after := sound.floors.after_lowest found lowest at_other trivial different
        have := sound.floors.rising seq p other q found at_other after
        have := (sound.floors.passed other q at_other).2
        omega
    rw [if_pos later]
    refine congrArg SequencePair.consumer (nextFloor_congr same (fun other there => ?_)
      (fun other there => ?_) _ _)
    · rw [same_isSome same] at there
      exact h.within other (Queued.isSome_erase.mp there).2
    · have := sound.queued.below other (Queued.isSome_erase.mp there).2
      omega
  · exact h.floor

theorem ack (h : InStep o) (sound : Sound o) (sseq dseq : Nat) :
    InStep (o.processAckMsg sseq dseq) := by
  by_cases passed : o.sseq ≤ sseq ∧ o.cfg.flowControl = false
  · rwa [processAckMsg_ahead passed.1 passed.2]
  cases found : Table.get o.pending sseq with
  | none =>
    have absent : Table.get o.store.pending sseq = none := by
      have entry := h.entries sseq
      rw [found] at entry
      exact map_eq_none_iff.mp entry
    obtain ⟨pending, floor, delivered⟩ :=
      @ConsumerState.updateAcks_absent o.store o.cfg dseq sseq absent
    rw [processAckMsg_none sound.explicit sound.queued.index passed found]
    generalize (o.store.updateAcks o.cfg dseq sseq).1 = s at pending floor delivered ⊢
    refine ⟨⟨fun seq => ?_, ?_⟩, ?_, fun seq there => ?_, ?_, h.settled⟩
    · exact pending ▸ h.entries seq
    · exact floor ▸ h.floor
    · exact delivered ▸ h.sent
    · exact delivered ▸ h.within seq there
    · exact delivered ▸ h.reached
  | some p =>
    have entry := h.entries sseq
    rw [found] at entry
    obtain ⟨q, at_store, sequence⟩ := map_eq_some_iff.mp entry
    have above := (sound.floors.above sseq p found trivial).2
    have floor := h.same_floor sound found
    rw [processAckMsg_some sound.explicit sound.queued.index passed found, ← sequence,
      ConsumerState.updateAcks_explicit sound.explicit at_store (by rw [h.floor, sequence]; exact above)]
    rw [← sequence] at floor
    refine ⟨⟨same_erase h.entries sseq, floor⟩, h.sent, fun seq there => ?_, h.reached,
      fun none_left => ?_⟩
    · exact h.within seq (Queued.isSome_erase.mp there).2
    · have := sound.floors.consumer
      change (floorAfter _ _ _ _ _ _ _).consumer + 1 = o.dseq
      rw [floorAfter, if_pos (eq_nil_iff.mpr none_left)]
      change o.dseq - 1 + 1 = o.dseq
      omega

theorem same (h : InStep o) (pending : ∀ seq, (Table.get o'.pending seq).map Pending.sequence =
      (Table.get o.pending seq).map Pending.sequence) (store : o'.store = o.store)
    (sseq : o.sseq ≤ o'.sseq) (dseq : o'.dseq = o.dseq) (adflr : o'.adflr = o.adflr) :
    InStep o' where
  entries seq := by rw [store, h.entries, pending]
  floor := by rw [store, h.floor, adflr]
  sent := by rw [store, h.sent, dseq]
  within seq there := by
    rw [same_isSome pending] at there
    rw [store]
    exact h.within seq there
  reached := by
    rw [store]
    exact lt_of_lt_of_le h.reached sseq
  settled none_left := by
    rw [adflr, dseq]
    refine h.settled (fun seq => ?_)
    have entry := pending seq
    rw [none_left] at entry
    exact map_eq_none_iff.mp entry.symm

theorem again (h : InStep o) (sound : Sound o) (checked : o.cfg.Checked) {d : Nat}
    (found : Table.get o.pending seq = some p) (new : o.adflr < d) (small : dc < word) {ts : Int}
    (store : o'.store = (o.store.updateDelivered o.cfg d seq dc ts).1)
    (pending : ∀ other, (Table.get o'.pending other).map Pending.sequence =
      (Table.get (if Beyond o dc then Table.erase o.pending seq else o.pending) other).map
        Pending.sequence) (sseq : o'.sseq = o.sseq) (dseq : o'.dseq = max o.dseq (d + 1))
    (adflr : o'.adflr = o.adflr)
    (settled : (∀ seq, Table.get o'.pending seq = none) → o'.adflr + 1 = o'.dseq) : InStep o' := by
  have entry := h.entries seq
  rw [found] at entry
  obtain ⟨q, at_store, sequence⟩ := map_eq_some_iff.mp entry
  have passed := h.within seq (by rw [found]; rfl)
  obtain ⟨entries, delivered, floor⟩ :=
    @ConsumerState.updateDelivered_new o.store o.cfg d seq dc ts (by rw [sound.explicit]; decide)
      (by rw [h.floor]; exact new)
  have tracked : ∀ other, (Table.get (o.store.trackDelivered d seq ts) other).map Pending.sequence =
      (Table.get o.pending other).map Pending.sequence := by
    intro other
    rw [ConsumerState.trackDelivered_again at_store passed]
    split
    next same =>
      rw [← same, found]
      exact congrArg some sequence
    · exact h.entries other
  rw [max_eq_left passed] at delivered
  refine ⟨⟨fun other => ?_, ?_⟩, ?_, fun other known => ?_, ?_, settled⟩
  · rw [store, pending, entries, if_congr (checked.limit_iff small) rfl rfl]
    change (Table.get (if Beyond o dc then _ else _) other).map _ = _
    by_cases over_limit : Beyond o dc
    · rw [if_pos over_limit, if_pos over_limit]
      exact same_erase tracked seq other
    · rw [if_neg over_limit, if_neg over_limit]
      exact tracked other
  · rw [store, floor, adflr]
    exact h.floor
  · have := h.sent
    rw [store, delivered, dseq]
    change max o.store.delivered.consumer d + 1 = max o.dseq (d + 1)
    omega
  · rw [store, delivered]
    rw [same_isSome pending] at known
    split at known
    · exact h.within other (Queued.isSome_erase.mp known).2
    · exact h.within other known
  · rw [store, delivered, sseq]
    exact h.reached

theorem same_retimed {pending : PendingMap} (found : Table.get pending seq = some p) (now : Int)
    (other : Nat) :
    (Table.get (Table.set pending seq { p with timestamp := now }) other).map Pending.sequence =
      (Table.get pending other).map Pending.sequence := by
  rw [get_set]
  split
  next same =>
    rw [← same, found]
    rfl
  · rfl

theorem set_not_empty {pending : PendingMap} {P : Prop}
    (none_left : ∀ other, Table.get (Table.set pending seq p) other = none) : P := by
  have gone := none_left seq
  rw [get_set, if_pos rfl] at gone
  cases gone

theorem deliverAgain (h : InStep o) (sound : Sound o) (checked : o.cfg.Checked)
    (there : (Table.get o.pending seq).isSome = true) (small : dc < word) (below : ¬ Beyond o dc)
    (ts now : Int) : InStep (o.deliverMsg seq ts dc now) := by
  obtain ⟨p, found⟩ := isSome_iff_exists.mp there
  rw [deliverMsg_eq (by rw [sound.explicit]; decide), found]
  refine h.again sound checked found sound.floors.consumer small rfl (fun other => ?_) rfl ?_ rfl
    set_not_empty
  · rw [if_neg below]
    exact same_retimed found now other
  · exact (max_eq_right (Nat.le_succ _)).symm

theorem deliverFirst (h : InStep o) (sound : Sound o) {next : Nat} (ahead : o.sseq ≤ seq)
    (passes : seq < next) (ts now : Int) :
    InStep ({ o with sseq := next }.deliverMsg seq ts 1 now) := by
  have acks : o.cfg.ackPolicy ≠ .ackNone := by
    rw [sound.explicit]
    decide
  have new : Table.get o.pending seq = none := by
    cases found : Table.get o.pending seq with
    | none => rfl
    | some p =>
      have := (sound.floors.passed seq p found).1
      omega
  have unseen := lt_of_lt_of_le h.reached ahead
  obtain ⟨pending, delivered, floor⟩ :=
    @ConsumerState.updateDelivered_new o.store o.cfg o.dseq seq 1 ts acks
      (by rw [h.floor]; exact sound.floors.consumer)
  rw [if_neg (by omega)] at pending
  rw [@deliverMsg_eq { o with sseq := next } acks, new]
  dsimp only
  generalize (o.store.updateDelivered o.cfg o.dseq seq 1 ts).1 = s at pending delivered floor ⊢
  refine ⟨⟨fun other => ?_, ?_⟩, ?_, fun other known => ?_, ?_, fun none_left => ?_⟩
  · change (Table.get s.pending other).map _ = (Table.get (Table.set _ _ _) other).map _
    rw [pending, ConsumerState.trackDelivered_first unseen, get_set]
    split
    · rfl
    · exact h.entries other
  · exact (congrArg SequencePair.consumer floor).trans h.floor
  · have := h.sent
    change s.delivered.consumer + 1 = o.dseq + 1
    rw [delivered]
    change max o.store.delivered.consumer o.dseq + 1 = o.dseq + 1
    omega
  · change other ≤ s.delivered.stream
    rw [delivered]
    rcases Queued.isSome_set.mp known with rfl | old
    · exact le_max_right _ _
    · exact le_trans (h.within other old) (le_max_left _ _)
  · change s.delivered.stream < next
    rw [delivered]
    exact Nat.max_lt.mpr ⟨Nat.lt_trans unseen passes, passes⟩
  · exact set_not_empty none_left

section

variable (h : InStep o) (sound : Sound o) (checked : o.cfg.Checked)

include h sound checked

theorem dropPending (small : dc < word) (limit : Beyond o dc)
    (left : ∃ other, other ≠ seq ∧ (Table.get o.pending other).isSome = true)
    (higher : ∀ p, Table.get o.pending seq = some p → p.sequence ≠ o.adflr + 1) :
    InStep (o.dropPending seq dc) := by
  cases found : Table.get o.pending seq with
  | none => rwa [dropPending_none found]
  | some p =>
    have above := (sound.floors.above seq p found trivial).2
    have sent := (sound.floors.passed seq p found).2
    obtain ⟨other, different, there⟩ := left
    have stays : Table.erase o.pending seq ≠ [] := by
      intro empty
      have gone := eq_nil_iff.mp empty other
      rw [get_erase, if_neg (fun same => different same.symm)] at gone
      rw [gone] at there
      cases there
    have floors : floorAfter (Table.erase o.pending seq) o.sseq o.dseq o.adflr o.asflr p.sequence seq =
        ⟨o.adflr, o.asflr⟩ := by
      rw [floorAfter, if_neg stays, if_neg (higher p found)]
    rw [dropPending_some found, floors]
    refine h.again sound checked found above small rfl (fun _ => by rw [if_pos limit]) rfl ?_ rfl
      (fun none_left => absurd (eq_nil_iff.mpr none_left) stays)
    exact (max_eq_left sent).symm

theorem retime (found : Table.get o.pending seq = some p) (small : dc < word)
    (below : ¬ Beyond o dc) {ts now : Int}
    (pending : o'.pending = Table.set o.pending seq { p with timestamp := now })
    (store : o'.store = (o.store.updateDelivered o.cfg p.sequence seq dc ts).1)
    (sseq : o'.sseq = o.sseq) (dseq : o'.dseq = o.dseq) (adflr : o'.adflr = o.adflr) :
    InStep o' := by
  have passed := (sound.floors.passed seq p found).2
  refine h.again sound checked found (sound.floors.above seq p found trivial).2 small store
    (fun other => ?_) sseq (dseq.trans (max_eq_left passed).symm) adflr (fun none_left => ?_)
  · rw [if_neg below, pending]
    exact same_retimed found now other
  · rw [pending] at none_left
    exact set_not_empty none_left

theorem processNak {sseq dseq : Nat} {delay : Option Int} {now : Int} (small : dc < word)
    (below : ¬ Beyond o dc) : InStep (o.processNak sseq dseq dc delay now) := by
  unfold Consumer.processNak
  split
  · exact h
  split
  · exact h
  next p delay found =>
    dsimp only
    rw [sound.queued.index.removeFromRedeliverQueue_eq]
    exact h.retime sound checked found small below rfl rfl rfl rfl rfl
  · split
    · exact h
    · exact h.same (fun _ => rfl) rfl (le_refl _) rfl rfl

theorem progressUpdate (seq : Nat) (now : Int) : InStep (o.progressUpdate seq now) := by
  rw [Consumer.progressUpdate]
  split
  · exact h
  next p found =>
    exact h.retime sound checked found (by decide : 1 < word) (not_beyond_one o) rfl rfl rfl rfl rfl

end

theorem requeued (h : InStep o) (swept : Requeued o o') : InStep o' := by
  refine h.same swept.pending swept.store (le_of_eq swept.sseq.symm) swept.dseq ?_
  rcases swept.floors with same | ⟨empty, moved, _⟩
  · exact same.1
  · have := h.settled empty
    omega

end InStep

/-- The histories: no failed deliveries, nothing removed from the stream, and naks that carry the
number of a delivery. -/
def Recorded (o : Consumer) : Event → Prop
  | .redeliver (.found _) request _ => o.cfg.pull = true → request = true
  | .nak _ _ dc _ _ => dc < word ∧ ¬ Beyond o dc
  | .checkPending fseq _ _ _ => ∀ seq, (Table.get o.pending seq).isSome = true → fseq ≤ seq
  | .didNotDeliver _ => False
  | .purge _ _ _ _ _ => False
  | _ => True

/-- No drop in a sweep, and no drop from the queue of the message the floor waits for or of the last
one pending. -/
def LeavesFloor (o : Consumer) : Event → Prop
  | .redeliver _ _ _ => ∀ seq ∈ o.rdq.head?, Beyond o ((nextCount o seq + 1) % word) →
      (∃ other, other ≠ seq ∧ (Table.get o.pending other).isSome = true) ∧
        ∀ p, Table.get o.pending seq = some p → p.sequence ≠ o.adflr + 1
  | .checkPending _ now _ _ => ∀ seq, Expires o now seq → seq ∉ o.rdqi → ¬ AtLimit o seq
  | .forceExpirePending _ _ => ∀ seq, (Table.get o.pending seq).isSome = true → seq ∉ o.rdqi →
      ¬ AtLimit o seq
  | _ => True

namespace InStep

variable {o : Consumer}

section

variable (h : InStep o) (sound : Sound o) (checked : o.cfg.Checked)

include h sound checked

theorem attempt {seq dc : Nat} (there : (Table.get o.pending seq).isSome = true) (small : dc < word)
    {loaded : Loaded} {request : Bool} {now : Int}
    (recorded : Recorded o (.redeliver loaded request now))
    (stays : Beyond o dc → (∃ other, other ≠ seq ∧ (Table.get o.pending other).isSome = true) ∧
      ∀ p, Table.get o.pending seq = some p → p.sequence ≠ o.adflr + 1) :
    InStep (o.attempt seq dc loaded request now) := by
  have back : InStep (o.decDeliveryCount seq) := h.same (fun _ => rfl) rfl (le_refl _) rfl rfl
  unfold Consumer.attempt
  split
  next limit => exact h.dropPending sound checked small limit (stays limit).1 (stays limit).2
  rename_i below
  cases loaded with
  | found ts =>
    dsimp only
    split
    next waits =>
      have given := recorded waits.1
      rw [waits.2] at given
      cases given
    · exact h.deliverAgain sound checked there small below ts now
  | missing =>
    dsimp only
    split
    · exact back.ack ⟨sound.explicit, sound.queued.decDeliveryCount seq, sound.floors⟩ _ _
    · exact back
  | failed => exact back

theorem redeliver {loaded : Loaded} {request : Bool} {now : Int}
    (recorded : Recorded o (.redeliver loaded request now))
    (stays : LeavesFloor o (.redeliver loaded request now)) :
    InStep (o.redeliver loaded request now) := by
  cases queue : o.rdq with
  | nil => rwa [Indexes.redeliver_nil queue]
  | cons seq rest =>
    have there := sound.queued.waiting seq (queue ▸ List.mem_cons_self)
    have counted : InStep (turned o seq rest) :=
      h.same (fun _ => rfl) rfl (le_refl _) rfl rfl
    have still : Sound (turned o seq rest) :=
      ⟨sound.explicit, (sound.queued.turned queue).1, sound.floors⟩
    rw [sound.queued.index.redeliver_cons queue]
    refine counted.attempt still checked there (Nat.mod_lt _ (by decide)) ?_
      (stays seq (by rw [queue]; rfl))
    cases loaded with
    | found ts => exact recorded
    | missing => trivial
    | failed => trivial

theorem step {e : Event} (valid : Valid o e) (recorded : Recorded o e) (stays : LeavesFloor o e) :
    InStep (o.step e) := by
  cases e with
  | deliver seq resume ts now =>
    exact h.deliverFirst sound valid.deliver.1 valid.deliver.2 ts now
  | skip last =>
    obtain ⟨next, skipped, low⟩ := valid.skip
    rw [skipped]
    exact h.same (fun _ => rfl) rfl low rfl rfl
  | redeliver loaded request now => exact h.redeliver sound checked recorded stays
  | ack sseq dseq => exact h.ack sound sseq dseq
  | term sseq dseq => exact h.ack sound sseq dseq
  | nak sseq dseq dc delay now => exact h.processNak sound checked recorded.1 recorded.2
  | progress seq now => exact h.progressUpdate sound checked seq now
  | didNotDeliver seq => exact recorded.elim
  | checkPending fseq now order bail =>
    refine h.requeued (Requeued.checkPending (fun seq there => ?_)
      (fun seq there => ⟨recorded seq there, stays seq⟩))
    obtain ⟨p, found⟩ := isSome_iff_exists.mp there
    exact (sound.floors.above seq p found trivial).1
  | forceExpirePending now order =>
    exact h.requeued (Requeued.forceExpirePending stays valid)
  | purge sseq slseq isWider gone order => exact recorded.elim

end

end InStep

variable {o : Consumer}

theorem Recorded.listed {e : Event} (recorded : Recorded o e) : Listed o e := by
  cases e with
  | redeliver loaded request now =>
    cases loaded with
    | found ts => exact recorded
    | missing => trivial
    | failed => trivial
  | didNotDeliver seq => exact recorded
  | _ => trivial

theorem Recorded.orderly {e : Event} (recorded : Recorded o e) : Orderly o e := by
  cases e with
  | checkPending fseq now order bail =>
    cases bail with
    | none => trivial
    | some visited => exact fun _ => recorded
  | purge sseq slseq isWider gone order => exact recorded.elim
  | _ => trivial

theorem Started.inStep (h : Started o) : InStep o where
  entries seq := by rw [h.entries, h.pending]
  floor := by rw [h.acked]
  sent := by
    rw [h.sent, h.next]
    rfl
  within seq there := by
    rw [h.pending] at there
    cases there
  reached := by
    have := h.stream
    rw [h.sent]
    change o.sseq - 1 < o.sseq
    omega
  settled _ := h.next.symm

end LinearNats.JetStream
