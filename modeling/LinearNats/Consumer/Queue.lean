import LinearNats.Consumer.Step

/-! The redelivery queue: what it holds is pending, whatever happens to the consumer. -/
namespace LinearNats.JetStream
open List Option Consumer

/-- Everything queued is pending, and everything pending has been passed in the stream. -/
structure Queued (o : Consumer) : Prop where
  index : Indexes o
  waiting : ∀ seq ∈ o.rdq, (Table.get o.pending seq).isSome = true
  below : ∀ seq, (Table.get o.pending seq).isSome = true → seq < o.sseq

namespace Queued

variable {o o' : Consumer} {seq : Nat}

theorem same_queue (h : Queued o) (rdq : o'.rdq = o.rdq) (rdqi : o'.rdqi = o.rdqi)
    (keep : ∀ seq ∈ o.rdq, (Table.get o'.pending seq).isSome = true)
    (low : ∀ seq, (Table.get o'.pending seq).isSome = true → seq < o'.sseq) : Queued o' where
  index := by
    rw [Indexes, rdq, rdqi]
    exact h.index
  waiting := rdq ▸ keep
  below := low

theorem frame (h : Queued o) (rdq : o'.rdq = o.rdq) (rdqi : o'.rdqi = o.rdqi)
    (sseq : o.sseq ≤ o'.sseq)
    (pending : ∀ seq, (Table.get o'.pending seq).isSome = (Table.get o.pending seq).isSome) :
    Queued o' :=
  h.same_queue rdq rdqi (fun seq inside => (pending seq).trans (h.waiting seq inside))
    (fun seq there => lt_of_lt_of_le (h.below seq ((pending seq).symm.trans there)) sseq)

theorem isSome_erase {pending : PendingMap} {other : Nat} :
    (Table.get (Table.erase pending seq) other).isSome = true ↔
      seq ≠ other ∧ (Table.get pending other).isSome = true := by
  rw [Table.get_erase]
  split <;> rename_i same <;> simp [same]

theorem isSome_set {pending : PendingMap} {other : Nat} {p : Pending} :
    (Table.get (Table.set pending seq p) other).isSome = true ↔
      seq = other ∨ (Table.get pending other).isSome = true := by
  rw [Table.get_set]
  split <;> rename_i same <;> simp [same]

theorem forget (h : Queued o) (rdq : o'.rdq = o.rdq.erase seq) (rdqi : o'.rdqi = o.rdqi.erase seq)
    (sseq : o'.sseq = o.sseq)
    (pending : ∀ other, Table.get o'.pending other = Table.get (Table.erase o.pending seq) other) :
    Queued o' where
  index := by
    rw [Indexes, rdq, rdqi]
    exact ⟨h.index.erase seq, h.index.2.erase seq⟩
  waiting other inside := by
    rw [rdq, h.index.2.mem_erase_iff] at inside
    rw [pending, isSome_erase]
    exact ⟨fun same => inside.1 same.symm, h.waiting other inside.2⟩
  below other there := by
    rw [pending, isSome_erase] at there
    rw [sseq]
    exact h.below other there.2

theorem drop (h : Queued o) (out : seq ∉ o.rdq) (rdq : o'.rdq = o.rdq) (rdqi : o'.rdqi = o.rdqi)
    (sseq : o'.sseq = o.sseq)
    (pending : ∀ other, Table.get o'.pending other = Table.get (Table.erase o.pending seq) other) :
    Queued o' := by
  refine h.forget ?_ ?_ sseq pending
  · rw [rdq, erase_of_not_mem out]
  · rw [rdqi, Finset.erase_eq_of_notMem (fun there => out (h.index.mem_iff.mp there))]

theorem pop (h : Queued o) {rest : List Nat} (queue : o.rdq = seq :: rest) :
    Queued { o with rdq := rest, rdqi := o.rdqi.erase seq } ∧ seq ∉ rest := by
  have nodup := h.index.2
  rw [queue, nodup_cons] at nodup
  have erased : o.rdq.erase seq = rest := by rw [queue, erase_cons_head]
  refine ⟨⟨⟨?_, nodup.2⟩, fun other inside => h.waiting other ?_, h.below⟩, nodup.1⟩
  · exact erased ▸ h.index.erase seq
  · rw [queue]
    exact mem_cons_of_mem _ inside

theorem push (h : Queued o) {seqs : List Nat} (nodup : seqs.Nodup) (new : ∀ seq ∈ seqs, seq ∉ o.rdq)
    (there : ∀ seq ∈ seqs, (Table.get o.pending seq).isSome = true) :
    Queued (o.addToRedeliverQueue seqs) where
  index := by
    refine ⟨?_, h.index.2.append nodup (fun seq old added => new seq added old)⟩
    simp only [addToRedeliverQueue, h.index.1, toFinset_append]
  waiting := forall_mem_append.mpr ⟨h.waiting, there⟩
  below := h.below

end Queued

namespace Queued

variable {o : Consumer} {seq : Nat}

section

variable (h : Queued o)

include h

theorem deliverMsg (below : seq < o.sseq) (ts : Int) (dc : Nat) (now : Int) :
    Queued (o.deliverMsg seq ts dc now) := by
  rw [Consumer.deliverMsg]
  split
  · exact h.frame rfl rfl (le_refl _) (fun _ => rfl)
  rw [trackPending_eq]
  refine h.same_queue rfl rfl (fun other inside => ?_) (fun other there => ?_)
  · exact isSome_set.mpr (.inr (h.waiting other inside))
  · rcases isSome_set.mp there with rfl | old
    · exact below
    · exact h.below other old

theorem dropPending (out : seq ∉ o.rdq) (dc : Nat) : Queued (o.dropPending seq dc) := by
  cases found : Table.get o.pending seq with
  | none => rwa [dropPending_none found]
  | some p =>
    rw [dropPending_some found]
    exact h.drop out rfl rfl rfl (fun _ => rfl)

theorem remove (seq : Nat) : Queued (o.remove seq) := by
  rw [h.index.remove_eq]
  exact h.forget rfl rfl rfl (fun _ => rfl)

theorem removeAll (seqs : List Nat) : Queued (seqs.foldl Consumer.remove o) := by
  induction seqs generalizing o with
  | nil => exact h
  | cons seq rest ih => exact ih (h.remove seq)

theorem removeDown (count seq : Nat) : Queued (o.removeDown count seq) := by
  induction count generalizing o seq with
  | zero => exact h
  | succ count ih =>
    rw [removeDown]
    split
    · exact h
    · exact ih (h.remove seq) (seq - 1)

theorem processAckMsg (sseq dseq : Nat) : Queued (o.processAckMsg sseq dseq) := by
  by_cases passed : o.sseq ≤ sseq ∧ o.cfg.flowControl = false
  · rwa [processAckMsg_ahead passed.1 passed.2]
  have together : o.cfg.ackPolicy = .ackAll ∨ o.cfg.ackPolicy = .ackFlowControl →
      Queued (o.processAckMsg sseq dseq) := by
    intro policy
    have swept : Queued (({ o with adflr := dseq, asflr := sseq } : Consumer).removeThrough
        (sseq - o.asflr) sseq) := by
      have base : Queued { o with adflr := dseq, asflr := sseq } := h.frame rfl rfl
        (le_refl _) (fun _ => rfl)
      rw [removeThrough]
      split
      · exact base.removeAll _
      · exact base.removeDown _ _
    rw [Consumer.processAckMsg, if_neg passed]
    rcases policy with policy | policy <;> rw [policy] <;> dsimp only <;> split
    · exact h
    · exact swept.frame rfl rfl (le_refl _) (fun _ => rfl)
    · exact h
    · exact swept.frame rfl rfl (le_refl _) (fun _ => rfl)
  cases policy : o.cfg.ackPolicy with
  | ackNone =>
    rw [Consumer.processAckMsg, if_neg passed, policy]
    exact h
  | ackAll => exact together (.inl policy)
  | ackFlowControl => exact together (.inr policy)
  | ackExplicit =>
    cases found : Table.get o.pending sseq with
    | none =>
      rw [processAckMsg_none policy h.index passed found]
      exact h.forget rfl rfl rfl (fun other => (erase_none found other).symm)
    | some p =>
      rw [processAckMsg_some policy h.index passed found]
      exact h.forget rfl rfl rfl (fun _ => rfl)

theorem retime {p : Pending} (found : (Table.get o.pending seq).isSome = true) {o' : Consumer}
    (rdq : o'.rdq = o.rdq) (rdqi : o'.rdqi = o.rdqi) (sseq : o'.sseq = o.sseq)
    (pending : o'.pending = Table.set o.pending seq p) : Queued o' := by
  refine h.frame rdq rdqi (le_of_eq sseq.symm) (fun other => ?_)
  rw [pending, Bool.eq_iff_iff, isSome_set]
  exact ⟨fun either => either.elim (fun same => same ▸ found) id, .inr⟩

theorem push_one (new : seq ∉ o.rdqi) (there : (Table.get o.pending seq).isSome) :
    Queued (o.addToRedeliverQueue [seq]) := by
  refine h.push (nodup_singleton _) ?_ ?_ <;> intro other inside <;>
    rw [mem_singleton.mp inside]
  · exact fun queued => new (h.index.mem_iff.mpr queued)
  · exact there

theorem processNak (sseq dseq dc : Nat) (delay : Option Int) (now : Int) :
    Queued (o.processNak sseq dseq dc delay now) := by
  unfold Consumer.processNak
  split
  · exact h
  split
  · exact h
  next p delay found =>
    have out : Queued (o.removeFromRedeliverQueue sseq) := by
      rw [h.index.removeFromRedeliverQueue_eq]
      refine ⟨⟨h.index.erase sseq, h.index.2.erase sseq⟩, fun other inside => ?_, h.below⟩
      exact h.waiting other (mem_of_mem_erase inside)
    have same : (o.removeFromRedeliverQueue sseq).pending = o.pending := by
      rw [h.index.removeFromRedeliverQueue_eq]
    exact out.retime (by rw [same, found]; rfl) rfl rfl rfl rfl
  next p found =>
    split
    · exact h
    · rename_i out
      exact h.push_one out (by rw [found]; rfl)

theorem progressUpdate (seq : Nat) (now : Int) : Queued (o.progressUpdate seq now) := by
  rw [Consumer.progressUpdate]
  split
  · exact h
  next p found => exact h.retime (by rw [found]; rfl) rfl rfl rfl rfl

theorem decDeliveryCount (seq : Nat) : Queued (o.decDeliveryCount seq) :=
  h.frame rfl rfl (le_refl _) (fun _ => rfl)

theorem didNotDeliver (seq : Nat) : Queued (o.didNotDeliver seq) := by
  rw [Consumer.didNotDeliver]
  split
  next again => exact (h.decDeliveryCount seq).push_one again.2.2 again.2.1
  · exact h.decDeliveryCount seq

end

/-- The event takes the last message of the stream position back although it is pending. -/
def TakesBack (o : Consumer) : Event → Prop
  | .redeliver (.found _) false _ =>
    o.cfg.pull = true ∧ ∃ seq ∈ o.rdq.head?, nextCount o seq = 0 ∧ seq = o.sseq - 1
  | _ => False

variable {rest order : List Nat} {s : Sweep}

theorem turned (h : Queued o) (queue : o.rdq = seq :: rest) :
    Queued (turned o seq rest) ∧ seq ∉ rest := by
  obtain ⟨popped, out⟩ := h.pop queue
  exact ⟨popped.frame rfl rfl (le_refl _) (fun _ => rfl), out⟩

theorem count_zero {count : Nat} (bound : count < word) (one : (count + 1) % word = 1) :
    count = 0 := by
  by_cases last : count + 1 = word
  · rw [last, Nat.mod_self] at one
    cases one
  · rw [Nat.mod_eq_of_lt (by omega)] at one
    omega

theorem nextCount_lt (o : Consumer) (seq : Nat) : nextCount o seq < word :=
  Nat.mod_lt _ (by decide)

theorem putBack (h : Queued o) {dc : Nat} (there : (Table.get o.pending seq).isSome = true)
    (later : ¬ (dc = 1 ∧ seq = o.sseq - 1)) : Queued (o.putBack seq dc) := by
  rw [Consumer.putBack, if_neg later]
  split
  · exact h
  next new => exact (h.decDeliveryCount seq).push_one new there

theorem redeliver (h : Queued o) {loaded : Loaded} {request : Bool} {now : Int}
    (stays : ¬ TakesBack o (.redeliver loaded request now)) :
    Queued (o.redeliver loaded request now) := by
  cases queue : o.rdq with
  | nil => rwa [Indexes.redeliver_nil queue]
  | cons seq rest =>
    have there := h.waiting seq (queue ▸ mem_cons_self)
    obtain ⟨counted, out⟩ := h.turned queue
    rw [h.index.redeliver_cons queue]
    unfold attempt
    split
    · exact counted.dropPending out _
    cases loaded with
    | failed => exact counted.decDeliveryCount seq
    | missing =>
      have back := counted.decDeliveryCount seq
      dsimp only
      split
      · exact back.processAckMsg _ _
      · exact back
    | found ts =>
      dsimp only
      split
      next waits =>
        refine counted.putBack there (fun first => ?_)
        rw [waits.2] at stays
        refine stays ⟨waits.1, seq, ?_, count_zero (nextCount_lt o seq) first.1, first.2⟩
        rw [queue]
        rfl
      · exact counted.deliverMsg (h.below seq there) _ _ _

/-! Sweeps over the pending entries. -/

/-- During a sweep the expired entries are pending, not queued, and not visited again. -/
structure Sweeping (s : Sweep) (rest : List Nat) : Prop where
  queued : Queued s.o
  nodup : s.expired.Nodup
  there : ∀ seq ∈ s.expired, (Table.get s.o.pending seq).isSome = true
  out : ∀ seq ∈ s.expired, seq ∉ s.o.rdq
  done : ∀ seq ∈ s.expired, seq ∉ rest
  ahead : ∀ seq ∈ rest, (Table.get s.o.pending seq).isSome = true

theorem Sweeping.skip (h : Sweeping s (seq :: rest)) : Sweeping s rest :=
  { h with
    done := fun other inside later => h.done other inside (mem_cons_of_mem _ later)
    ahead := fun other later => h.ahead other (mem_cons_of_mem _ later) }

theorem Sweeping.take {s' : Sweep} (h : Sweeping s (seq :: rest)) (new : seq ∉ rest)
    (queued : Queued s'.o) (expired : s'.expired = s.expired)
    (rdq : ∀ other, other ∈ s'.o.rdq → other ∈ s.o.rdq)
    (pending : ∀ other, Table.get s'.o.pending other =
      Table.get (Table.erase s.o.pending seq) other) : Sweeping s' rest where
  queued := queued
  nodup := expired ▸ h.nodup
  there other inside := by
    rw [expired] at inside
    rw [pending, isSome_erase]
    refine ⟨?_, h.there other inside⟩
    rintro rfl
    exact h.done seq inside mem_cons_self
  out other inside queue := h.out other (expired ▸ inside) (rdq other queue)
  done other inside later := h.done other (expired ▸ inside) (mem_cons_of_mem _ later)
  ahead other later := by
    rw [pending, isSome_erase]
    refine ⟨?_, h.ahead other (mem_cons_of_mem _ later)⟩
    rintro rfl
    exact new later

theorem Sweeping.expire (h : Sweeping s (seq :: rest)) (new : seq ∉ rest) :
    Sweeping (s.expire seq) rest := by
  have there := h.ahead seq mem_cons_self
  rw [expire_eq]
  split
  · exact h.skip
  rename_i not_indexed
  have not_queued : seq ∉ s.o.rdq := fun queue => not_indexed (h.queued.index.mem_iff.mpr queue)
  have later : Sweeping { s with expired := s.expired ++ [seq] } rest := by
    have fresh : seq ∉ s.expired := fun inside => h.done seq inside mem_cons_self
    have either : ∀ other, other ∈ s.expired ++ [seq] → other ∈ s.expired ∨ other = seq := by
      intro other inside
      simpa using inside
    refine ⟨h.queued, nodup_append.mpr ⟨h.nodup, nodup_singleton _, ?_⟩, ?_, ?_, ?_,
      h.skip.ahead⟩
    · rintro a inside b single rfl
      exact fresh (mem_singleton.mp single ▸ inside)
    · exact fun other inside => (either other inside).elim (h.there other) (fun same => same ▸ there)
    · exact fun other inside =>
        (either other inside).elim (h.out other) (fun same => same ▸ not_queued)
    · exact fun other inside =>
        (either other inside).elim (h.skip.done other) (fun same => same ▸ new)
  split
  · refine h.take new ((h.queued.dropPending not_queued _).frame rfl rfl (le_refl _)
      (fun _ => rfl)) rfl (fun other queue => ?_) (fun other => dropPending_get s.o seq _ other)
    cases found : Table.get s.o.pending seq with
    | none => simpa only [exceed, dropPending_none found] using queue
    | some p => simpa only [exceed, dropPending_some found] using queue
  · exact later

theorem Sweeping.visit (h : Sweeping s (seq :: rest)) (new : seq ∉ rest) (fseq : Nat) (now : Int) :
    Sweeping (s.visit fseq now seq) rest := by
  rw [Sweep.visit]
  split
  · exact h.skip
  rename_i p found
  split
  · refine h.take new ((h.queued.remove seq).frame rfl rfl (le_refl _) (fun _ => rfl)) rfl ?_ ?_
    · intro other queue
      simp only [h.queued.index.remove_eq] at queue
      exact mem_of_mem_erase queue
    · intro other
      simp only [h.queued.index.remove_eq]
  · split
    · exact h.expire new
    · exact h.skip

theorem Sweeping.fold {visit : Sweep → Nat → Sweep}
    (one : ∀ (s : Sweep) (seq : Nat) (rest : List Nat),
      Sweeping s (seq :: rest) → seq ∉ rest → Sweeping (visit s seq) rest) (nodup : order.Nodup)
    (h : Sweeping s order) : Sweeping (order.foldl visit s) [] := by
  induction order generalizing s with
  | nil => exact h
  | cons seq rest ih =>
    obtain ⟨new, later⟩ := nodup_cons.mp nodup
    exact ih later (one s seq rest h new)

theorem shiftTimes_get (pending : PendingMap) (expired : List Nat) (now : Int) (seq : Nat) :
    (Table.get (shiftTimes pending expired now) seq).map Pending.sequence =
      (Table.get pending seq).map Pending.sequence := by
  unfold shiftTimes
  split
  · rfl
  rename_i first rest
  have mapped := Table.get_map pending (fun seq p => if seq ∈ first :: rest then
    { p with timestamp := p.timestamp +
      (now - ((Table.get pending first).map Pending.timestamp).getD 0) } else p) seq
  refine (congrArg (Option.map Pending.sequence) mapped).trans ?_
  rw [Option.map_map]
  congr 1
  funext p
  simp only [Function.comp_apply]
  split <;> rfl

theorem Sweeping.requeue (h : Sweeping s []) (now : Int) : Queued (s.o.requeue s.expired now) := by
  rw [Consumer.requeue]
  split
  · exact h.queued
  have sorted := perm_insertionSort (· ≤ ·) s.expired
  have pushed := @push s.o h.queued (s.expired.insertionSort (· ≤ ·)) (sorted.nodup_iff.mpr h.nodup)
    (fun seq inside => h.out seq (sorted.mem_iff.mp inside))
    (fun seq inside => h.there seq (sorted.mem_iff.mp inside))
  refine pushed.frame rfl rfl (le_refl _) (fun seq => ?_)
  have same := congrArg Option.isSome (shiftTimes_get
    (s.o.addToRedeliverQueue (s.expired.insertionSort (· ≤ ·))).pending
    (s.expired.insertionSort (· ≤ ·)) now seq)
  simpa only [isSome_map] using same

theorem sweep_start (h : Queued o)
    (there : ∀ seq ∈ order, (Table.get o.pending seq).isSome = true) :
    Sweeping ⟨o, [], false⟩ order :=
  ⟨h, nodup_nil, fun _ inside => (not_mem_nil inside).elim,
    fun _ inside => (not_mem_nil inside).elim, fun _ inside => (not_mem_nil inside).elim,
    there⟩

theorem writeStoreState (h : Queued o) : Queued o.writeStoreState :=
  h.frame rfl rfl (le_refl _) (fun _ => rfl)

theorem cleared {pending : PendingMap} (empty : pending = []) {o' : Consumer}
    (same : o'.pending = pending) (rdq : o'.rdq = []) (rdqi : o'.rdqi = ∅) : Queued o' where
  index := ⟨by rw [rdq, rdqi]; rfl, rdq ▸ nodup_nil⟩
  waiting seq inside := by
    rw [rdq] at inside
    cases inside
  below seq there := by
    rw [same, empty] at there
    cases there

theorem checkPending (h : Queued o) (iterates : Iterates order o) (fseq : Nat) (now : Int)
    (bail : Option Nat) : Queued (o.checkPending fseq now order bail) := by
  unfold Consumer.checkPending
  cases bail with
  | some visited =>
    dsimp only
    split
    · have nodup : (order.take visited).Nodup := iterates.1.sublist (take_sublist _ _)
      exact (Sweeping.fold (fun s seq rest sweeping new => sweeping.visit new fseq now) nodup
        (h.sweep_start (fun seq inside =>
          (iterates.2 seq).mp (mem_of_mem_take inside)))).queued
    · exact h
  | none =>
    have swept := Sweeping.fold (fun s seq rest sweeping new => sweeping.visit new fseq now)
      iterates.1 (h.sweep_start (fun seq => (iterates.2 seq).mp))
    dsimp only
    generalize order.foldl (Sweep.visit fseq now) ⟨o, [], false⟩ = s at swept ⊢
    have requeued := swept.requeue now
    have settled : Queued (if (s.o.requeue s.expired now).pending = [] then
        { s.o.requeue s.expired now with
          rdq := [], rdqi := ∅, adflr := (s.o.requeue s.expired now).dseq - 1
          asflr := (s.o.requeue s.expired now).sseq - 1 }
        else s.o.requeue s.expired now) := by
      split
      next empty => exact cleared empty rfl rfl rfl
      · exact requeued
    split
    · exact settled.writeStoreState
    · exact settled

theorem forceExpirePending (h : Queued o) (iterates : Iterates order o) (now : Int) :
    Queued (o.forceExpirePending now order) :=
  (Sweeping.fold (fun _ _ _ sweeping new => sweeping.expire new) iterates.1
    (h.sweep_start (fun seq => (iterates.2 seq).mp))).requeue now

end Queued

namespace Queued

variable {o : Consumer}

/-- A purge leaves nothing in the queue, since everything queued is behind. -/
theorem purge (h : Queued o) (sseq slseq : Nat) (isWider : Bool) (gone : Nat → Bool)
    (order : List Nat) : Queued (o.purge sseq slseq isWider gone order) := by
  cases leader : o.leader with
  | false =>
    rw [Consumer.purge, if_pos leader]
    exact h
  | true =>
    rw [purge_eq leader]
    have pending := fun seq => @purgeSwept_get isWider gone order o
      (purgeStart sseq slseq isWider) seq
    obtain ⟨_, position, rdq, rdqi⟩ := @purgeSwept_frame isWider gone order o
      (purgeStart sseq slseq isWider)
    generalize purgeSwept o (purgeStart sseq slseq isWider) isWider gone order = swept
      at pending position rdq rdqi ⊢
    obtain ⟨_, position', rdq', rdqi'⟩ := purgeSettled_frame swept
    have entries := purgeSettled_pending swept
    generalize purgeSettled swept = settled at position' rdq' rdqi' entries ⊢
    rw [position] at position'
    rw [rdq] at rdq'
    rw [rdqi] at rdqi'
    have low : ∀ seq, (Table.get settled.pending seq).isSome = true → seq < settled.sseq := by
      intro seq there
      rw [entries, pending] at there
      split at there
      · cases there
      · have := h.below seq there
        omega
    refine writeStoreState ?_
    rw [purgeQueue]
    split
    next empty =>
      refine ⟨⟨?_, empty ▸ nodup_nil⟩, fun seq inside => ?_, low⟩
      · rw [rdqi', h.index.1, rdq']
      · rw [empty] at inside
        cases inside
    have behind : settled.rdq.filter (fun seq => decide (settled.sseq ≤ seq)) = [] := by
      rw [filter_eq_nil_iff]
      intro seq inside
      have := h.below seq (h.waiting seq (rdq' ▸ inside))
      simp only [decide_eq_true_eq]
      omega
    rw [behind]
    refine ⟨⟨?_, nodup_nil⟩, fun seq inside => ?_, low⟩
    · simp [addToRedeliverQueue]
    · simp [addToRedeliverQueue] at inside

theorem step (h : Queued o) {e : Event} (valid : Valid o e) (stays : ¬ TakesBack o e) :
    Queued (o.step e) := by
  cases e with
  | deliver seq resume ts now =>
    obtain ⟨ahead, passes⟩ := valid.deliver
    have moved : Queued { o with sseq := nextSeq seq resume } :=
      h.frame rfl rfl (le_trans ahead (le_of_lt passes)) (fun _ => rfl)
    exact moved.deliverMsg passes ts 1 now
  | skip last =>
    obtain ⟨next, skipped, low⟩ := valid.skip
    rw [skipped]
    exact h.frame rfl rfl low (fun _ => rfl)
  | redeliver loaded request now => exact h.redeliver stays
  | ack sseq dseq => exact h.processAckMsg sseq dseq
  | term sseq dseq => exact h.processAckMsg sseq dseq
  | nak sseq dseq dc delay now => exact h.processNak sseq dseq dc delay now
  | progress seq now => exact h.progressUpdate seq now
  | didNotDeliver seq => exact h.didNotDeliver seq
  | checkPending fseq now order bail => exact h.checkPending valid fseq now bail
  | forceExpirePending now order => exact h.forceExpirePending valid now
  | purge sseq slseq isWider gone order => exact h.purge sseq slseq isWider gone order

end Queued

/-! Sweeps that remove nothing. -/

def Expires (o : Consumer) (now : Int) (seq : Nat) : Prop :=
  ∃ p, Table.get o.pending seq = some p ∧ o.deadline seq ≤ now - p.timestamp

/-- The sweep finds every message in the stream, and no message to queue is at the limit. -/
def Quiet (o : Consumer) : Event → Prop
  | .checkPending fseq now _ _ => ∀ seq, (Table.get o.pending seq).isSome = true →
      fseq ≤ seq ∧ (Expires o now seq → seq ∉ o.rdqi → ¬ AtLimit o seq)
  | .forceExpirePending _ _ => ∀ seq, (Table.get o.pending seq).isSome = true →
      seq ∉ o.rdqi → ¬ AtLimit o seq
  | _ => True

/-- Only the queue and the times have changed; with nothing pending the floors are at the end. -/
structure Requeued (o o' : Consumer) : Prop where
  cfg : o'.cfg = o.cfg
  sseq : o'.sseq = o.sseq
  dseq : o'.dseq = o.dseq
  rdc : o'.rdc = o.rdc
  store : o'.store = o.store
  pending : ∀ seq, (Table.get o'.pending seq).map Pending.sequence =
    (Table.get o.pending seq).map Pending.sequence
  floors : o'.adflr = o.adflr ∧ o'.asflr = o.asflr ∨
    (∀ seq, Table.get o.pending seq = none) ∧ o'.adflr = o.dseq - 1 ∧ o'.asflr = o.sseq - 1

namespace Requeued

variable {o o' : Consumer} {order : List Nat} {now : Int}

theorem refl (o : Consumer) : Requeued o o :=
  ⟨rfl, rfl, rfl, rfl, rfl, fun _ => rfl, .inl ⟨rfl, rfl⟩⟩

theorem isSome (h : Requeued o o') (seq : Nat) :
    (Table.get o'.pending seq).isSome = (Table.get o.pending seq).isSome := by
  simpa only [isSome_map] using congrArg Option.isSome (h.pending seq)

theorem requeue (o : Consumer) (expired : List Nat) (now : Int) :
    Requeued o (o.requeue expired now) ∧ (o.requeue expired now).adflr = o.adflr ∧
      (o.requeue expired now).asflr = o.asflr := by
  rw [Consumer.requeue]
  split
  · exact ⟨refl o, rfl, rfl⟩
  · exact ⟨⟨rfl, rfl, rfl, rfl, rfl, Queued.shiftTimes_get _ _ _, .inl ⟨rfl, rfl⟩⟩, rfl, rfl⟩

theorem expire_quiet {s : Sweep} {seq : Nat}
    (below : seq ∉ s.o.rdqi → ¬ AtLimit s.o seq) :
    (s.expire seq).o = s.o ∧ (s.expire seq).shouldUpdateState = s.shouldUpdateState := by
  rw [expire_eq]
  split
  · exact ⟨rfl, rfl⟩
  next out =>
    rw [if_neg (below out)]
    exact ⟨rfl, rfl⟩

theorem visit_quiet {s : Sweep} {seq fseq : Nat}
    (later : (Table.get s.o.pending seq).isSome = true → fseq ≤ seq ∧ s.o.asflr < seq)
    (below : Expires s.o now seq → seq ∉ s.o.rdqi → ¬ AtLimit s.o seq) :
    (s.visit fseq now seq).o = s.o ∧
      (s.visit fseq now seq).shouldUpdateState = s.shouldUpdateState := by
  rw [Sweep.visit]
  split
  · exact ⟨rfl, rfl⟩
  rename_i p found
  have stays := later (found ▸ rfl)
  rw [if_neg (by omega)]
  split
  next over_due => exact expire_quiet (below ⟨p, found, over_due⟩)
  · exact ⟨rfl, rfl⟩

theorem sweep {visit : Sweep → Nat → Sweep}
    (one : ∀ s : Sweep, s.o = o → ∀ seq ∈ order, (visit s seq).o = s.o ∧
      (visit s seq).shouldUpdateState = s.shouldUpdateState) (s : Sweep) (same : s.o = o) :
    (order.foldl visit s).o = o ∧
      (order.foldl visit s).shouldUpdateState = s.shouldUpdateState := by
  induction order generalizing s with
  | nil => exact ⟨same, rfl⟩
  | cons seq rest ih =>
    obtain ⟨still, flag⟩ := one s same seq mem_cons_self
    obtain ⟨at_end, flag_end⟩ := ih
      (fun s same other inside => one s same other (mem_cons_of_mem _ inside))
      (visit s seq) (still.trans same)
    exact ⟨at_end, flag_end.trans flag⟩

theorem checkPending {fseq : Nat} {bail : Option Nat}
    (above : ∀ seq, (Table.get o.pending seq).isSome = true → o.asflr < seq)
    (quiet : Quiet o (.checkPending fseq now order bail)) :
    Requeued o (o.checkPending fseq now order bail) := by
  have swept : ∀ order : List Nat,
      (order.foldl (Sweep.visit fseq now) ⟨o, [], false⟩).o = o ∧
      (order.foldl (Sweep.visit fseq now) ⟨o, [], false⟩).shouldUpdateState = false := by
    intro order
    refine sweep (fun s same seq _ => ?_) _ rfl
    subst same
    refine visit_quiet (fun there => ⟨(quiet seq there).1, above seq there⟩) (fun due => ?_)
    have there : (Table.get s.o.pending seq).isSome = true := by
      obtain ⟨p, found, _⟩ := due
      rw [found]
      rfl
    exact (quiet seq there).2 due
  unfold Consumer.checkPending
  cases bail with
  | some visited =>
    dsimp only
    rw [(swept _).1, ite_self]
    exact refl o
  | none =>
    dsimp only
    rw [(swept order).2, if_neg (by decide), (swept order).1]
    obtain ⟨queue, adflr, asflr⟩ := requeue o
      (order.foldl (Sweep.visit fseq now) ⟨o, [], false⟩).expired now
    generalize o.requeue _ now = r at queue adflr asflr ⊢
    split
    next empty =>
      refine ⟨queue.cfg, queue.sseq, queue.dseq, queue.rdc, queue.store, queue.pending, .inr ?_⟩
      refine ⟨fun seq => ?_, congrArg (· - 1) queue.dseq, congrArg (· - 1) queue.sseq⟩
      have gone := queue.isSome seq
      rw [empty] at gone
      exact isNone_iff_eq_none.mp (by simpa using gone.symm)
    · exact queue

theorem forceExpirePending (quiet : Quiet o (.forceExpirePending now order))
    (iterates : Iterates order o) : Requeued o (o.forceExpirePending now order) := by
  have swept := (sweep (fun s same seq inside => by
    subst same
    exact expire_quiet (quiet seq ((iterates.2 seq).mp inside))) ⟨o, [], false⟩ rfl :
      (order.foldl Sweep.expire ⟨o, [], false⟩).o = o ∧ _)
  rw [Consumer.forceExpirePending, swept.1]
  exact (requeue o _ now).1

end Requeued

end LinearNats.JetStream
