import LinearNats.Consumer.Store

/-! Acknowledgements of everything up to a message, in a consumer and its store. The floor is the
consumer sequence of the delivery that was acknowledged, which after a redelivery may be above that
of later messages. -/
namespace LinearNats.JetStream
open Consumer

/-- Deliveries and redeliveries that happen, acknowledgements of what was delivered, and sweeps that
remove nothing. -/
def Delivering (j : Journal) : Event → Prop
  | .redeliver (.found _) request _ => (j.o.cfg.pull = true → request = true) ∧
      ∀ seq ∈ j.o.rdq.head?, ¬ Beyond j.o ((nextCount j.o seq + 1) % word)
  | .redeliver _ _ _ => False
  | .ack sseq dseq => (sseq, dseq) ∈ j.delivered
  | .term sseq dseq => (sseq, dseq) ∈ j.delivered
  | .nak _ _ dc _ _ => dc < word ∧ ¬ Beyond j.o dc
  | .didNotDeliver _ => False
  | .purge _ _ _ _ _ => False
  | e => Quiet j.o e

structure Cumulative (j : Journal) : Prop where
  policy : j.o.cfg.ackPolicy = .ackAll
  checked : j.o.cfg.Checked
  queued : Queued j.o
  above : ∀ seq, (Table.get j.o.pending seq).isSome = true → j.o.asflr < seq
  stream : j.o.asflr < j.o.sseq
  consumer : j.o.adflr < j.o.dseq
  sent : ∀ seq d, (seq, d) ∈ j.delivered → d < j.o.dseq ∧ seq < j.o.sseq ∧
    ((Table.get j.o.pending seq).isSome = true ∨ seq ≤ j.o.asflr)
  keys : ∀ seq, (Table.get j.o.store.pending seq).isSome = (Table.get j.o.pending seq).isSome
  floor : j.o.store.ackFloor.consumer ≤ j.o.adflr ∧ j.o.store.ackFloor.stream ≤ j.o.asflr
  reached : j.o.store.delivered.stream < j.o.sseq

namespace Cumulative

variable {j : Journal} {o' : Consumer}

theorem acks (h : Cumulative j) : j.o.cfg.ackPolicy ≠ .ackNone := by
  rw [h.policy]
  decide

theorem frame (h : Cumulative j) (cfg : o'.cfg = j.o.cfg) (queued : Queued o')
    (pending : ∀ seq, (Table.get o'.pending seq).isSome = (Table.get j.o.pending seq).isSome)
    (keys : ∀ seq, (Table.get o'.store.pending seq).isSome =
      (Table.get j.o.store.pending seq).isSome)
    (ackFloor : o'.store.ackFloor = j.o.store.ackFloor)
    (reached : o'.store.delivered.stream < o'.sseq) (sseq : j.o.sseq ≤ o'.sseq)
    (dseq : o'.dseq = j.o.dseq)
    (floors : o'.adflr = j.o.adflr ∧ o'.asflr = j.o.asflr ∨
      (∀ seq, Table.get j.o.pending seq = none) ∧
        o'.adflr = j.o.dseq - 1 ∧ o'.asflr = j.o.sseq - 1) :
    Cumulative { j with o := o' } := by
  have raised : j.o.adflr ≤ o'.adflr ∧ j.o.asflr ≤ o'.asflr ∧ o'.asflr < o'.sseq ∧
      o'.adflr < o'.dseq := by
    have := h.stream
    have := h.consumer
    omega
  refine ⟨cfg ▸ h.policy, cfg ▸ h.checked, queued, fun seq there => ?_, raised.2.2.1,
    raised.2.2.2, fun seq d inside => ?_, fun seq => ?_, ?_, reached⟩
  · change (Table.get o'.pending seq).isSome = true at there
    change o'.asflr < seq
    rw [pending seq] at there
    rcases floors with same | ⟨empty, _⟩
    · rw [same.2]
      exact h.above seq there
    · rw [empty seq] at there
      cases there
  · obtain ⟨old, passed, either⟩ := h.sent seq d inside
    refine ⟨Nat.lt_of_lt_of_eq old dseq.symm, lt_of_lt_of_le passed sseq, ?_⟩
    rcases either with there | low
    · exact .inl ((pending seq).trans there)
    · exact .inr (le_trans low raised.2.1)
  · exact (keys seq).trans ((h.keys seq).trans (pending seq).symm)
  · change o'.store.ackFloor.consumer ≤ o'.adflr ∧ o'.store.ackFloor.stream ≤ o'.asflr
    rw [ackFloor]
    exact ⟨le_trans h.floor.1 raised.1, le_trans h.floor.2 raised.2.1⟩

variable {seq dc sseq dseq : Nat}

theorem touch (h : Cumulative j) (there : (Table.get j.o.pending seq).isSome = true)
    (small : dc < word) (within : ¬ Beyond j.o dc) (d : Nat) (ts : Int) :
    (∀ other, (Table.get (j.o.store.updateDelivered j.o.cfg d seq dc ts).1.pending other).isSome =
        (Table.get j.o.store.pending other).isSome) ∧
      (j.o.store.updateDelivered j.o.cfg d seq dc ts).1.ackFloor = j.o.store.ackFloor ∧
      (j.o.store.updateDelivered j.o.cfg d seq dc ts).1.delivered.stream < j.o.sseq := by
  have known : (Table.get j.o.store.pending seq).isSome = true := (h.keys seq).trans there
  obtain ⟨keys, floor, reached⟩ := @ConsumerState.updateDelivered_keys j.o.store j.o.cfg d seq dc ts
    h.acks (fun limit => within ((h.checked.limit_iff small).mp limit)) (.inr known)
  refine ⟨fun other => ?_, floor, ?_⟩
  · rw [Bool.eq_iff_iff, keys other]
    exact ⟨fun either => either.elim (fun same => same ▸ known) id, .inr⟩
  · have := h.queued.below seq there
    have := h.reached
    omega

theorem processAckMsg_old {o : Consumer} (policy : o.cfg.ackPolicy = .ackAll)
    (old : dseq ≤ o.adflr ∨ sseq ≤ o.asflr) : o.processAckMsg sseq dseq = o := by
  rw [processAckMsg, policy]
  dsimp only
  rw [if_pos old, ite_self]

/-- What an acknowledgement does that is not taken for an old one. -/
structure AcksThrough (o : Consumer) (sseq dseq : Nat) (o' : Consumer) : Prop where
  pending : ∀ other, Table.get o'.pending other =
    if other ≤ sseq then none else Table.get o.pending other
  stored : ∀ other, Table.get o'.store.pending other =
    if other ≤ sseq then none else Table.get o.store.pending other
  floors : o'.adflr = dseq ∧ o'.asflr = sseq
  floor : o'.store.ackFloor = ⟨dseq, sseq⟩
  delivered : o'.store.delivered = o.store.delivered
  cfg : o'.cfg = o.cfg
  sseq : o'.sseq = o.sseq
  dseq : o'.dseq = o.dseq

section

variable (h : Cumulative j)

include h

theorem acksThrough (there : (Table.get j.o.pending sseq).isSome = true) (new : j.o.adflr < dseq) :
    AcksThrough j.o sseq dseq (j.o.processAckMsg sseq dseq) := by
  have higher := h.above sseq there
  have passed := h.queued.below sseq there
  have trimmed := removeThrough_trimmed { j.o with adflr := dseq, asflr := sseq }
    (sseq - j.o.asflr) sseq
  have removed := @Consumer.get_removeThrough { j.o with adflr := dseq, asflr := sseq }
    (sseq - j.o.asflr) sseq (Nat.sub_le _ _) (fun seq inside => by
      have := h.above seq inside
      omega)
  obtain ⟨stored, floor, delivered⟩ := @ConsumerState.updateAcks_all j.o.store j.o.cfg dseq sseq
    h.policy (lt_of_le_of_lt h.floor.1 new) ((h.keys sseq).trans there)
    (fun seq inside => lt_of_le_of_lt h.floor.2 (h.above seq ((h.keys seq).symm.trans inside)))
  rw [processAckMsg, if_neg (by omega), h.policy]
  dsimp only
  rw [if_neg (by omega)]
  generalize removeThrough _ (sseq - j.o.asflr) sseq = r at trimmed removed ⊢
  have cfg : r.cfg = j.o.cfg := trimmed.cfg
  have store : r.store = j.o.store := trimmed.store
  rw [updateAcks, store, cfg]
  exact ⟨removed, stored, ⟨trimmed.adflr, trimmed.asflr⟩, floor, delivered, rfl, trimmed.sseq,
    trimmed.dseq⟩

theorem ack (sent : (sseq, dseq) ∈ j.delivered) :
    Cumulative { j with o := j.o.processAckMsg sseq dseq } := by
  obtain ⟨old, passed, either⟩ := h.sent sseq dseq sent
  by_cases ignored : dseq ≤ j.o.adflr ∨ sseq ≤ j.o.asflr
  · rw [processAckMsg_old h.policy ignored]
    exact h
  have there := either.resolve_right (fun low => ignored (.inr low))
  have done : AcksThrough j.o sseq dseq _ := acksThrough h there (by omega)
  have queued := h.queued.processAckMsg sseq dseq
  generalize j.o.processAckMsg sseq dseq = o' at done queued
  refine ⟨done.cfg ▸ h.policy, done.cfg ▸ h.checked, queued, fun seq inside => ?_, ?_, ?_,
    fun seq d inside => ?_, fun seq => ?_, ?_, ?_⟩
  · change (Table.get o'.pending seq).isSome = true at inside
    rw [done.pending] at inside
    change o'.asflr < seq
    rw [done.floors.2]
    split at inside
    · cases inside
    · omega
  · change o'.asflr < o'.sseq
    rw [done.floors.2, done.sseq]
    exact passed
  · change o'.adflr < o'.dseq
    rw [done.floors.1, done.dseq]
    exact old
  · obtain ⟨before, below, known⟩ := h.sent seq d inside
    change d < o'.dseq ∧ seq < o'.sseq ∧ ((Table.get o'.pending seq).isSome = true ∨ seq ≤ o'.asflr)
    rw [done.dseq, done.sseq, done.floors.2, done.pending]
    refine ⟨before, below, ?_⟩
    split
    · exact .inr ‹_›
    · refine known.imp_right (fun low => ?_)
      omega
  · change (Table.get o'.store.pending seq).isSome = (Table.get o'.pending seq).isSome
    rw [done.stored, done.pending]
    split
    · rfl
    · exact h.keys seq
  · change o'.store.ackFloor.consumer ≤ o'.adflr ∧ o'.store.ackFloor.stream ≤ o'.asflr
    rw [done.floor, done.floors.1, done.floors.2]
    exact ⟨le_refl _, le_refl _⟩
  · change o'.store.delivered.stream < o'.sseq
    rw [done.delivered, done.sseq]
    exact h.reached

theorem deliverMsg (passed : seq < j.o.sseq) (expected : (Table.get j.o.pending seq).isSome = true ∨
      j.o.store.delivered.stream < seq ∧ j.o.asflr < seq) (small : dc < word)
    (within : ¬ Beyond j.o dc) (ts now : Int) :
    Cumulative { j with
      o := j.o.deliverMsg seq ts dc now
      delivered := (seq, j.o.dseq) :: j.delivered } := by
  have queued := h.queued.deliverMsg passed ts dc now
  obtain ⟨keys, floor, reached⟩ :=
    @ConsumerState.updateDelivered_keys j.o.store j.o.cfg j.o.dseq seq dc ts h.acks
      (fun limit => within ((h.checked.limit_iff small).mp limit))
      (expected.symm.imp (fun new => ⟨new.1, lt_of_le_of_lt h.floor.1 h.consumer⟩)
        (fun there => (h.keys seq).trans there))
  rw [deliverMsg_eq h.acks] at queued ⊢
  refine ⟨h.policy, h.checked, queued, fun other there => ?_, h.stream, Nat.lt_succ_of_lt h.consumer,
    fun other d inside => ?_, fun other => ?_, ?_, ?_⟩
  · rcases Queued.isSome_set.mp there with rfl | old
    · exact expected.elim (h.above seq) And.right
    · exact h.above other old
  · rcases List.mem_cons.mp inside with first | earlier
    · cases first
      exact ⟨Nat.lt_succ_self _, passed, .inl (Queued.isSome_set.mpr (.inl rfl))⟩
    · obtain ⟨before, below, known⟩ := h.sent other d earlier
      exact ⟨Nat.lt_succ_of_lt before, below,
        known.imp_left (fun there => Queued.isSome_set.mpr (.inr there))⟩
  · rw [Bool.eq_iff_iff]
    exact (keys other).trans ((or_congr_right (by rw [h.keys])).trans Queued.isSome_set.symm)
  · exact floor ▸ h.floor
  · exact Nat.lt_of_le_of_lt reached (Nat.max_lt.mpr ⟨h.reached, passed⟩)

theorem same (queued : Queued o') (cfg : o'.cfg = j.o.cfg) (pending : o'.pending = j.o.pending)
    (store : o'.store = j.o.store) (sseq : j.o.sseq ≤ o'.sseq) (dseq : o'.dseq = j.o.dseq)
    (floors : o'.adflr = j.o.adflr ∧ o'.asflr = j.o.asflr) : Cumulative { j with o := o' } :=
  h.frame cfg queued (fun _ => by rw [pending]) (fun _ => by rw [store]) (by rw [store])
    (store ▸ lt_of_lt_of_le h.reached sseq) sseq dseq (.inl floors)

theorem redeliver {ts : Int} {request : Bool} {now : Int}
    (delivering : Delivering j (.redeliver (.found ts) request now)) :
    Cumulative (j.step (.redeliver (.found ts) request now)) := by
  cases queue : j.o.rdq with
  | nil =>
    have stays := Indexes.redeliver_nil queue (.found ts) request now
    have nothing : deliveredBy j.o (.redeliver (.found ts) request now) = none := by
      rw [deliveredBy, stays, if_neg (lt_irrefl _)]
    rw [Journal.step_none nothing (fun _ => nofun)]
    change Cumulative { j with o := j.o.redeliver (.found ts) request now }
    rwa [stays]
  | cons seq rest =>
    have within := delivering.2 seq (by rw [queue]; rfl)
    have there := h.queued.waiting seq (queue ▸ List.mem_cons_self)
    have counted : Cumulative { j with o := turned j.o seq rest } :=
      h.same (h.queued.turned queue).1 rfl rfl rfl (le_refl _) rfl ⟨rfl, rfl⟩
    have again : j.o.redeliver (.found ts) request now =
        (turned j.o seq rest).deliverMsg seq ts ((nextCount j.o seq + 1) % word) now := by
      rw [h.queued.index.redeliver_cons queue]
      unfold attempt
      rw [if_neg (by exact within)]
      refine if_neg (fun waits => ?_)
      rw [delivering.1 waits.1] at waits
      cases waits.2
    have one : deliveredBy j.o (.redeliver (.found ts) request now) = some seq := by
      rw [deliveredBy, again, deliverMsg_eq counted.acks, queue]
      exact if_pos (Nat.lt_succ_self _)
    have delivered := counted.deliverMsg (h.queued.below seq there) (.inl there)
      (Nat.mod_lt _ (by decide)) within ts now
    rw [← again] at delivered
    rw [Journal.step_some one]
    exact delivered

theorem retime {p q : Pending} (found : Table.get j.o.pending seq = some p) (small : dc < word)
    (within : ¬ Beyond j.o dc) (queued : Queued o') {d : Nat} {ts : Int} (cfg : o'.cfg = j.o.cfg)
    (pending : o'.pending = Table.set j.o.pending seq q)
    (store : o'.store = (j.o.store.updateDelivered j.o.cfg d seq dc ts).1)
    (sseq : o'.sseq = j.o.sseq) (dseq : o'.dseq = j.o.dseq)
    (floors : o'.adflr = j.o.adflr ∧ o'.asflr = j.o.asflr) : Cumulative { j with o := o' } := by
  have there : (Table.get j.o.pending seq).isSome = true := by
    rw [found]
    rfl
  obtain ⟨keys, floor, reached⟩ := h.touch there small within d ts
  refine h.frame cfg queued (fun other => ?_) (by rw [store]; exact keys) (by rw [store]; exact floor)
    (by rw [store, sseq]; exact reached) (le_of_eq sseq.symm) dseq (.inl floors)
  rw [pending, Bool.eq_iff_iff, Queued.isSome_set]
  exact ⟨fun either => either.elim (fun same => same ▸ there) id, .inr⟩

theorem processNak {delay : Option Int} {now : Int} (small : dc < word) (within : ¬ Beyond j.o dc) :
    Cumulative { j with o := j.o.processNak sseq dseq dc delay now } := by
  have queued := h.queued.processNak sseq dseq dc delay now
  unfold Consumer.processNak at queued ⊢
  split
  · exact h
  rename_i new
  rw [if_neg new] at queued
  split
  · exact h
  next p delay found =>
    rw [found] at queued
    dsimp only at queued ⊢
    rw [h.queued.index.removeFromRedeliverQueue_eq] at queued ⊢
    exact h.retime found small within queued rfl rfl rfl rfl rfl ⟨rfl, rfl⟩
  next p found =>
    rw [found] at queued
    dsimp only at queued
    split
    · exact h
    · rename_i out
      rw [if_neg out] at queued
      exact h.same queued rfl rfl rfl (le_refl _) rfl ⟨rfl, rfl⟩

theorem progressUpdate (seq : Nat) (now : Int) :
    Cumulative { j with o := j.o.progressUpdate seq now } := by
  have queued := h.queued.progressUpdate seq now
  rw [Consumer.progressUpdate] at queued ⊢
  split
  · exact h
  rename_i p found
  rw [found] at queued
  exact h.retime found (by decide : 1 < word) (not_beyond_one j.o) queued rfl rfl rfl rfl rfl
    ⟨rfl, rfl⟩

theorem requeued (queued : Queued o') (swept : Requeued j.o o') : Cumulative { j with o := o' } :=
  h.frame swept.cfg queued swept.isSome (fun _ => by rw [swept.store]) (by rw [swept.store])
    (by rw [swept.store, swept.sseq]; exact h.reached) (le_of_eq swept.sseq.symm) swept.dseq
    swept.floors

theorem step {e : Event} (valid : Valid j.o e) (delivering : Delivering j e) :
    Cumulative (j.step e) := by
  cases e with
  | deliver seq resume ts now =>
    obtain ⟨ahead, passes⟩ := valid.deliver
    have moved : Cumulative { j with o := { j.o with sseq := nextSeq seq resume } } := by
      have low : j.o.sseq ≤ nextSeq seq resume := le_trans ahead (le_of_lt passes)
      exact h.same (h.queued.frame rfl rfl low (fun _ => rfl)) rfl rfl rfl low rfl ⟨rfl, rfl⟩
    rw [Journal.step_some rfl]
    refine moved.deliverMsg passes (.inr ⟨?_, ?_⟩) (by decide : 1 < word) (not_beyond_one _) ts now
    · exact lt_of_lt_of_le h.reached ahead
    · exact lt_of_lt_of_le h.stream ahead
  | skip last =>
    obtain ⟨next, skipped, low⟩ := valid.skip
    change Cumulative { j with o := j.o.step (.skip last) }
    rw [skipped]
    exact h.same (h.queued.frame rfl rfl low (fun _ => rfl)) rfl rfl rfl low rfl ⟨rfl, rfl⟩
  | redeliver loaded request now =>
    cases loaded with
    | found ts => exact h.redeliver delivering
    | missing => exact delivering.elim
    | failed => exact delivering.elim
  | ack sseq dseq =>
    change Cumulative { j with o := j.o.processAckMsg sseq dseq }
    exact h.ack delivering
  | term sseq dseq =>
    change Cumulative { j with o := j.o.processAckMsg sseq dseq }
    exact h.ack delivering
  | nak sseq dseq dc delay now =>
    change Cumulative { j with o := j.o.processNak sseq dseq dc delay now }
    exact h.processNak delivering.1 delivering.2
  | progress seq now =>
    change Cumulative { j with o := j.o.progressUpdate seq now }
    exact h.progressUpdate seq now
  | didNotDeliver seq => exact delivering.elim
  | checkPending fseq now order bail =>
    change Cumulative { j with o := j.o.checkPending fseq now order bail }
    exact h.requeued (h.queued.checkPending valid fseq now bail)
      (Requeued.checkPending h.above delivering)
  | forceExpirePending now order =>
    change Cumulative { j with o := j.o.forceExpirePending now order }
    exact h.requeued (h.queued.forceExpirePending valid now)
      (Requeued.forceExpirePending delivering valid)
  | purge sseq slseq isWider gone order => exact delivering.elim

end

end Cumulative

theorem Started.cumulative {o : Consumer} (h : Started o) (policy : o.cfg.ackPolicy = .ackAll)
    (checked : o.cfg.Checked) : Cumulative ⟨o, [], []⟩ where
  policy := policy
  checked := checked
  queued := h.queued
  above seq there := by
    change (Table.get o.pending seq).isSome = true at there
    rw [h.pending] at there
    cases there
  stream := h.stream
  consumer := h.consumer
  sent _ _ inside := (List.not_mem_nil inside).elim
  keys seq := by
    change (Table.get o.store.pending seq).isSome = (Table.get o.pending seq).isSome
    rw [h.entries, h.pending]
  floor := by
    change o.store.ackFloor.consumer ≤ o.adflr ∧ o.store.ackFloor.stream ≤ o.asflr
    rw [h.acked]
    exact ⟨le_refl _, le_refl _⟩
  reached := by
    change o.store.delivered.stream < o.sseq
    have := h.stream
    rw [h.sent]
    change o.sseq - 1 < o.sseq
    omega

def RemovesThrough (o : Consumer) (sseq : Nat) (o' : Consumer) : Prop :=
  (∀ seq, Table.get o'.pending seq = if seq ≤ sseq then none else Table.get o.pending seq) ∧
    ∀ seq, Table.get o'.store.pending seq =
      if seq ≤ sseq then none else Table.get o.store.pending seq

def allAcks : ConsumerConfig := ⟨.ackAll, -1, 30, [], false, true⟩

def firstAgain : List Event :=
  [.deliver 1 none 10 10, .deliver 2 none 11 11, .deliver 3 none 12 12, .nak 1 1 1 none 13,
    .redeliver (.found 10) true 14]

theorem firstAgain_delivering (more : List Event)
    (rest : Along Journal.step (fun j e => Valid j.o e ∧ Delivering j e)
      (run Journal.step ⟨newConsumer allAcks [], [], []⟩ firstAgain) more) :
    Along Journal.step (fun j e => Valid j.o e ∧ Delivering j e)
      ⟨newConsumer allAcks [], [], []⟩ (firstAgain ++ more) := by
  refine ⟨⟨⟨by decide +kernel, by decide, by decide⟩, trivial⟩, ⟨⟨by decide +kernel, by decide, by decide⟩, trivial⟩,
    ⟨⟨by decide +kernel, by decide, by decide⟩, trivial⟩, ⟨trivial, by decide, ?_⟩,
    ⟨trivial, fun _ => rfl, fun seq _ => ?_⟩, rest⟩
  · exact fun limit => absurd limit.1 (by decide +kernel)
  · exact fun limit => absurd limit.1 (by decide +kernel)

end LinearNats.JetStream
