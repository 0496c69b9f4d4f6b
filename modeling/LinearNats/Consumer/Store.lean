import LinearNats.Consumer.Floors

/-! The consumer's store: what each update does to its entries, and the removal of everything up to
an acknowledged message, which the consumer and the store do in the same two ways. -/
namespace LinearNats.JetStream
open Scan List Table

/-- Limits below -1 are set to -1 when a consumer is made. -/
def ConsumerConfig.Checked (cfg : ConsumerConfig) : Prop :=
  -1 ≤ cfg.maxDeliver ∧ cfg.maxDeliver < 2 ^ 63

instance (cfg : ConsumerConfig) : Decidable cfg.Checked := inferInstanceAs (Decidable (_ ∧ _))

/-- The store converts the limit itself: a limit of -1 becomes the largest word. -/
theorem ConsumerConfig.Checked.limit_iff {cfg : ConsumerConfig} (checked : cfg.Checked) {dc : Nat}
    (bound : dc < word) :
    0 < (cfg.maxDeliver % word).toNat ∧ (cfg.maxDeliver % word).toNat < dc ↔
      0 < cfg.maxDeliver.toNat ∧ cfg.maxDeliver.toNat < dc := by
  have size : (word : Int) = 18446744073709551616 := rfl
  have largest : word = 18446744073709551616 := rfl
  obtain ⟨lower, upper⟩ := checked
  rw [size]
  rw [largest] at bound
  omega

def Beyond (o : Consumer) (dc : Nat) : Prop := 0 < o.maxdc ∧ o.maxdc < dc

instance (o : Consumer) (dc : Nat) : Decidable (Beyond o dc) := inferInstanceAs (Decidable (_ ∧ _))

theorem not_beyond_one (o : Consumer) : ¬ Beyond o 1 := by
  rintro ⟨positive, below⟩
  omega

namespace ConsumerState

variable {s : ConsumerState} {cfg : ConsumerConfig} {dseq sseq dc : Nat} {ts : Int}

theorem updateDelivered_old (acks : cfg.ackPolicy ≠ .ackNone) (old : dseq ≤ s.ackFloor.consumer) :
    (s.updateDelivered cfg dseq sseq dc ts).1 = s := by
  rw [updateDelivered, if_neg (fun both => acks both.2), if_pos old]

theorem updateDelivered_new (acks : cfg.ackPolicy ≠ .ackNone) (new : s.ackFloor.consumer < dseq) :
    (s.updateDelivered cfg dseq sseq dc ts).1.pending =
        (if 0 < (cfg.maxDeliver % word).toNat ∧ (cfg.maxDeliver % word).toNat < dc then
          Table.erase (s.trackDelivered dseq sseq ts) sseq else s.trackDelivered dseq sseq ts) ∧
      (s.updateDelivered cfg dseq sseq dc ts).1.delivered =
        ⟨max s.delivered.consumer dseq, max s.delivered.stream sseq⟩ ∧
      (s.updateDelivered cfg dseq sseq dc ts).1.ackFloor = s.ackFloor := by
  rw [updateDelivered, if_neg (fun both => acks both.2), if_neg (not_le.mpr new), if_pos acks]
  by_cases again : 1 < dc
  · simp only [if_pos again, and_self]
  · have within : ¬ (0 < (cfg.maxDeliver % word).toNat ∧ (cfg.maxDeliver % word).toNat < dc) := by
      omega
    simp only [if_neg again, if_neg within, and_self]

theorem trackDelivered_again {p : Pending} (found : Table.get s.pending sseq = some p)
    (passed : sseq ≤ s.delivered.stream) (other : Nat) :
    Table.get (s.trackDelivered dseq sseq ts) other =
      if sseq = other then some { p with timestamp := ts } else Table.get s.pending other := by
  rw [trackDelivered, if_pos passed, found]
  exact get_set _ _ _ _

theorem trackDelivered_first (ahead : s.delivered.stream < sseq) (other : Nat) :
    Table.get (s.trackDelivered dseq sseq ts) other =
      if sseq = other then some ⟨dseq, ts⟩ else Table.get s.pending other := by
  rw [trackDelivered, if_neg (not_le.mpr ahead)]
  exact get_set _ _ _ _

theorem updateDelivered_keys (acks : cfg.ackPolicy ≠ .ackNone)
    (within : ¬ (0 < (cfg.maxDeliver % word).toNat ∧ (cfg.maxDeliver % word).toNat < dc))
    (expected : s.delivered.stream < sseq ∧ s.ackFloor.consumer < dseq ∨
      (Table.get s.pending sseq).isSome = true) :
    (∀ other, (Table.get (s.updateDelivered cfg dseq sseq dc ts).1.pending other).isSome = true ↔
        sseq = other ∨ (Table.get s.pending other).isSome = true) ∧
      (s.updateDelivered cfg dseq sseq dc ts).1.ackFloor = s.ackFloor ∧
      (s.updateDelivered cfg dseq sseq dc ts).1.delivered.stream ≤ max s.delivered.stream sseq := by
  rcases lt_or_ge s.ackFloor.consumer dseq with new | old
  · obtain ⟨pending, delivered, floor⟩ := @updateDelivered_new s cfg dseq sseq dc ts acks new
    refine ⟨fun other => ?_, floor, delivered ▸ le_refl _⟩
    rw [pending, if_neg within]
    rcases lt_or_ge s.delivered.stream sseq with ahead | passed
    · rw [trackDelivered_first ahead]
      split <;> rename_i same <;> simp [same]
    have there := expected.resolve_left (fun ahead => absurd ahead.1 (not_lt.mpr passed))
    obtain ⟨p, found⟩ := Option.isSome_iff_exists.mp there
    rw [trackDelivered_again found passed]
    split <;> rename_i same <;> simp [same]
  · rw [updateDelivered_old acks old]
    have there := expected.resolve_left (fun new => absurd new.2 (not_lt.mpr old))
    refine ⟨fun other => ⟨.inr, ?_⟩, rfl, le_max_left _ _⟩
    rintro (rfl | known)
    · exact there
    · exact known

end ConsumerState

structure Started (o : Consumer) : Prop extends Unused o where
  entries : o.store.pending = []
  acked : o.store.ackFloor = ⟨o.adflr, o.asflr⟩
  sent : o.store.delivered = ⟨o.dseq - 1, o.sseq - 1⟩
  next : o.dseq = o.adflr + 1

theorem newConsumer_started (cfg : ConsumerConfig) (subjf : List Server.Bytes) :
    Started (newConsumer cfg subjf) :=
  ⟨newConsumer_unused cfg subjf, rfl, rfl, rfl, rfl⟩

def limited (limit : Nat) (pull : Bool) : ConsumerConfig := ⟨.ackExplicit, limit, 30, [], false, pull⟩

/-! Removal of everything up to a message. -/

section Through

variable {pending : PendingMap}

theorem get_of_empty (empty : pending = []) (seq : Nat) : Table.get pending seq = none := by
  rw [empty, get_nil]

theorem mem_keys {seq : Nat} (there : (Table.get pending seq).isSome = true) :
    seq ∈ pending.map Prod.fst := by
  obtain ⟨p, found⟩ := Option.isSome_iff_exists.mp there
  exact mem_map_of_mem (mem_of_get found)

variable {S : Type} {table : S → PendingMap} {remove : S → Nat → S} {down : S → Nat → Nat → S}

theorem get_removeAll (removes : ∀ s seq other, Table.get (table (remove s seq)) other =
      Table.get (Table.erase (table s) seq) other) (seqs : List Nat) (s : S) (other : Nat) :
    Table.get (table (seqs.foldl remove s)) other =
      if other ∈ seqs then none else Table.get (table s) other := by
  induction seqs generalizing s with
  | nil => simp
  | cons seq rest ih =>
    rw [foldl_cons, ih, removes, get_erase]
    split
    next later =>
      rw [if_pos (mem_cons_of_mem _ later)]
    next later =>
    by_cases same : seq = other
    · rw [if_pos same, if_pos (same ▸ mem_cons_self)]
    rw [if_neg same, if_neg (by
      rintro (_ | ⟨_, inside⟩)
      · exact same rfl
      · exact later inside)]

section

variable
  (removes : ∀ s seq other, Table.get (table (remove s seq)) other = Table.get (Table.erase (table s) seq) other)
  (zero : ∀ s seq, down s 0 seq = s)
  (succ : ∀ s count seq, down s (count + 1) seq = if table s = [] then s else down (remove s seq) count (seq - 1))

include removes zero succ

theorem get_removeDown {count seq : Nat} (enough : count ≤ seq) (s : S) (other : Nat) :
    Table.get (table (down s count seq)) other =
      if seq - count < other ∧ other ≤ seq then none else Table.get (table s) other := by
  induction count generalizing seq s with
  | zero => rw [zero, if_neg (by omega)]
  | succ count ih =>
    rw [succ]
    split
    next empty =>
      rw [get_of_empty empty, ite_self]
    rw [ih (by omega), removes, get_erase]
    by_cases same : seq = other
    · rw [if_pos same, ite_self, if_pos (by omega)]
    · rw [if_neg same]
      exact if_congr (by omega) rfl rfl

/-- Both ways leave the entries above `sseq`, provided that none is below the range. -/
theorem get_removeThrough {sgap sseq : Nat} (enough : sgap ≤ sseq) {s : S}
    (above : ∀ seq, (Table.get (table s) seq).isSome = true → sseq - sgap < seq) (other : Nat) :
    Table.get (table (if (table s).length < sgap then
        (((table s).map Prod.fst).filter (fun seq => decide (seq ≤ sseq))).foldl remove s
      else down s sgap sseq)) other =
      if other ≤ sseq then none else Table.get (table s) other := by
  have absent : ∀ (P : Prop) [Decidable P], (other ≤ sseq → ¬ P → Table.get (table s) other = none) →
      (P → other ≤ sseq) → (if P then none else Table.get (table s) other) =
        if other ≤ sseq then none else Table.get (table s) other := by
    intro P _ none_left inside
    by_cases low : other ≤ sseq
    · rw [if_pos low]
      split
      · rfl
      · exact none_left low ‹_›
    · rw [if_neg low, if_neg (fun holds => low (inside holds))]
  split
  · rw [get_removeAll removes]
    refine absent _ (fun low out => ?_) (fun inside => ?_)
    · by_contra there
      refine out (mem_filter.mpr ⟨mem_keys (Option.isSome_iff_ne_none.mpr there), ?_⟩)
      exact decide_eq_true low
    · exact of_decide_eq_true (mem_filter.mp inside).2
  · rw [get_removeDown removes zero succ enough]
    refine absent _ (fun low out => ?_) And.right
    by_contra there
    exact out ⟨above other (Option.isSome_iff_ne_none.mpr there), low⟩

end

theorem ConsumerState.get_removeThrough {s : ConsumerState} {sgap sseq : Nat} (enough : sgap ≤ sseq)
    (above : ∀ seq, (Table.get s.pending seq).isSome = true → sseq - sgap < seq) (other : Nat) :
    Table.get (s.removeThrough sgap sseq).pending other =
      if other ≤ sseq then none else Table.get s.pending other :=
  JetStream.get_removeThrough (fun _ _ _ => rfl) (fun _ _ => rfl) (fun _ _ _ => rfl) enough above other

theorem ConsumerState.removeThrough_frame (s : ConsumerState) (sgap sseq : Nat) :
    (s.removeThrough sgap sseq).ackFloor = s.ackFloor ∧
      (s.removeThrough sgap sseq).delivered = s.delivered := by
  have each : ∀ (seqs : List Nat) (s : ConsumerState), (seqs.foldl remove s).ackFloor = s.ackFloor ∧
      (seqs.foldl remove s).delivered = s.delivered := by
    intro seqs
    induction seqs with
    | nil => exact fun _ => ⟨rfl, rfl⟩
    | cons seq rest ih => exact fun s => ih (s.remove seq)
  have down : ∀ (count seq : Nat) (s : ConsumerState),
      (s.removeDown count seq).ackFloor = s.ackFloor ∧
        (s.removeDown count seq).delivered = s.delivered := by
    intro count
    induction count with
    | zero => exact fun _ _ => ⟨rfl, rfl⟩
    | succ count ih =>
      intro seq s
      rw [removeDown]
      split
      · exact ⟨rfl, rfl⟩
      · exact ih (seq - 1) (s.remove seq)
  rw [removeThrough]
  split
  · exact each _ s
  · exact down _ _ s

theorem ConsumerState.updateAcks_all {s : ConsumerState} {cfg : ConsumerConfig} {dseq sseq : Nat}
    (policy : cfg.ackPolicy = .ackAll) (new : s.ackFloor.consumer < dseq)
    (there : (Table.get s.pending sseq).isSome = true)
    (above : ∀ seq, (Table.get s.pending seq).isSome = true → s.ackFloor.stream < seq) :
    (∀ other, Table.get (s.updateAcks cfg dseq sseq).1.pending other =
        if other ≤ sseq then none else Table.get s.pending other) ∧
      (s.updateAcks cfg dseq sseq).1.ackFloor = ⟨dseq, sseq⟩ ∧
      (s.updateAcks cfg dseq sseq).1.delivered = s.delivered := by
  obtain ⟨p, found⟩ := Option.isSome_iff_exists.mp there
  have higher := above sseq there
  have distance : gap sseq s.ackFloor.stream = sseq - s.ackFloor.stream :=
    if_pos (le_of_lt higher)
  unfold updateAcks
  rw [if_neg (by rw [policy]; decide)]
  dsimp only
  rw [if_neg (not_le.mpr new), found]
  dsimp only
  rw [if_pos (.inl policy), distance]
  have frame := removeThrough_frame { s with
    redelivered := Table.erase s.redelivered sseq, ackFloor := ⟨dseq, sseq⟩ }
    (sseq - s.ackFloor.stream) sseq
  refine ⟨fun other => ?_, frame.1, frame.2⟩
  refine get_removeThrough (Nat.sub_le _ _) (fun seq inside => ?_) other
  have := above seq inside
  omega

theorem remove_get (o : Consumer) (seq other : Nat) :
    Table.get (o.remove seq).pending other = Table.get (Table.erase o.pending seq) other := by
  rw [Consumer.remove, Consumer.removeFromRedeliverQueue]
  split
  · split <;> rfl
  · rfl

theorem Consumer.get_removeThrough {o : Consumer} {sgap sseq : Nat} (enough : sgap ≤ sseq)
    (above : ∀ seq, (Table.get o.pending seq).isSome = true → sseq - sgap < seq) (other : Nat) :
    Table.get (o.removeThrough sgap sseq).pending other =
      if other ≤ sseq then none else Table.get o.pending other :=
  JetStream.get_removeThrough remove_get (fun _ _ => rfl) (fun _ _ _ => rfl) enough above other

end Through

end LinearNats.JetStream
