import LinearNats.Consumer.Queue

/-! The floors of a consumer with explicit acknowledgements stay below everything pending. -/
namespace LinearNats.JetStream
open Scan List Option Consumer Table

/-- The floors are below those pending entries that `P` is about; all entries have been passed, and
later messages were first delivered later. -/
structure Floors (P : Nat → Prop) (pending : PendingMap) (sseq dseq adflr asflr : Nat) : Prop where
  passed : ∀ seq p, Table.get pending seq = some p → seq < sseq ∧ p.sequence < dseq
  above : ∀ seq p, Table.get pending seq = some p → P seq → asflr < seq ∧ adflr < p.sequence
  rising : ∀ a p b q, Table.get pending a = some p → Table.get pending b = some q → a < b →
    p.sequence < q.sequence
  stream : asflr < sseq
  consumer : adflr < dseq

namespace Floors

variable {P : Nat → Prop} {pending : PendingMap} {sseq dseq adflr asflr seq : Nat}

section

variable (h : Floors P pending sseq dseq adflr asflr)

include h

theorem sub {pending' : PendingMap} (old : ∀ seq p, Table.get pending' seq = some p →
      ∃ q, Table.get pending seq = some q ∧ q.sequence = p.sequence) :
    Floors P pending' sseq dseq adflr asflr where
  passed seq p found := by
    obtain ⟨q, there, same⟩ := old seq p found
    exact same ▸ h.passed seq q there
  above seq p found wanted := by
    obtain ⟨q, there, same⟩ := old seq p found
    exact same ▸ h.above seq q there wanted
  rising a p b q at_a at_b before := by
    obtain ⟨p', there_a, same_a⟩ := old a p at_a
    obtain ⟨q', there_b, same_b⟩ := old b q at_b
    rw [← same_a, ← same_b]
    exact h.rising a p' b q' there_a there_b before
  stream := h.stream
  consumer := h.consumer

theorem erase (seq : Nat) : Floors P (Table.erase pending seq) sseq dseq adflr asflr :=
  h.sub (fun _ p found => ⟨p, (get_of_erase found).2, rfl⟩)

theorem move {adflr' asflr' : Nat} (stream : asflr' < sseq) (consumer : adflr' < dseq)
    (above : ∀ seq p, Table.get pending seq = some p → P seq → asflr' < seq ∧ adflr' < p.sequence) :
    Floors P pending sseq dseq adflr' asflr' :=
  { h with above := above, stream := stream, consumer := consumer }

theorem finish (all : ∀ seq p, Table.get pending seq = some p → P seq) :
    Floors (fun _ => True) pending sseq dseq adflr asflr :=
  { h with above := fun seq p found _ => h.above seq p found (all seq p found) }

end

theorem empty (stream : asflr < sseq) (consumer : adflr < dseq) :
    Floors P [] sseq dseq adflr asflr :=
  ⟨nofun, nofun, nofun, stream, consumer⟩

variable {p : Pending}

section

variable (h : Floors P pending sseq dseq adflr asflr)

include h

theorem after_lowest (found : Table.get pending seq = some p) (lowest : p.sequence = adflr + 1)
    {other : Nat} {q : Pending} (there : Table.get pending other = some q) (wanted : P other)
    (different : seq ≠ other) : seq < other := by
  by_contra not_after
  have before := h.rising other q seq p there found (by omega)
  have := (h.above other q there wanted).2
  omega

theorem floorAfter (found : Table.get pending seq = some p) :
    Floors P (Table.erase pending seq) sseq dseq
      (floorAfter (Table.erase pending seq) sseq dseq adflr asflr p.sequence seq).consumer
      (floorAfter (Table.erase pending seq) sseq dseq adflr asflr p.sequence seq).stream := by
  have left := h.erase seq
  have stream := h.stream
  have consumer := h.consumer
  obtain ⟨behind, delivered⟩ := h.passed seq p found
  rw [JetStream.floorAfter]
  split
  next empty =>
    refine left.move (by dsimp only; omega) (by dsimp only; omega) (fun other q there _ => ?_)
    rw [empty] at there
    cases there
  split
  next lowest =>
    rw [nextFloor]
    cases next : firstIn (fun ss => (Table.get (Table.erase pending seq) ss).isSome) (seq + 1)
        (sseq - 1) with
    | none =>
      refine left.move behind delivered (fun other q there wanted => ?_)
      obtain ⟨different, at_other⟩ := get_of_erase there
      have later := h.after_lowest found lowest at_other wanted different
      exact ⟨later, h.rising seq p other q found at_other later⟩
    | some ss =>
      obtain ⟨low, high, at_ss, least⟩ := firstIn_some next
      obtain ⟨r, there_ss⟩ := isSome_iff_exists.mp at_ss
      obtain ⟨_, old_ss⟩ := get_of_erase there_ss
      have positive := h.rising seq p ss r found old_ss (by omega)
      have bound := (h.passed ss r old_ss).2
      simp only [there_ss, if_pos (show 0 < r.sequence by omega)]
      refine left.move (by omega) (by omega) (fun other q there wanted => ?_)
      obtain ⟨different, at_other⟩ := get_of_erase there
      have later := h.after_lowest found lowest at_other wanted different
      have not_before : ss ≤ other := by
        have := (h.passed other q at_other).1
        exact least other (by omega) (by omega) (by rw [there]; rfl)
      have order : r.sequence ≤ q.sequence := by
        rcases eq_or_lt_of_le not_before with same | before
        · subst same
          rw [old_ss] at at_other
          cases at_other
          exact le_refl _
        · exact le_of_lt (h.rising ss r other q old_ss at_other before)
      omega
  · exact left

theorem track {next : Nat} (ahead : sseq ≤ seq) (passes : seq < next) (now : Int) :
    Floors P (Table.set pending seq ⟨dseq, now⟩) next (dseq + 1) adflr asflr := by
  have stream := h.stream
  have consumer := h.consumer
  have entry : ∀ other q, Table.get (Table.set pending seq ⟨dseq, now⟩) other = some q →
      (other = seq ∧ q = ⟨dseq, now⟩) ∨ (other < seq ∧ Table.get pending other = some q) := by
    intro other q found
    rw [get_set] at found
    split at found
    next same => exact .inl ⟨same.symm, (Option.some.inj found).symm⟩
    · have := (h.passed other q found).1
      exact .inr ⟨by omega, found⟩
  refine ⟨fun other q found => ?_, fun other q found wanted => ?_,
    fun a p b q at_a at_b before => ?_, by omega, by omega⟩
  · rcases entry other q found with ⟨rfl, rfl⟩ | ⟨_, old⟩
    · exact ⟨passes, Nat.lt_succ_self _⟩
    · have := h.passed other q old
      omega
  · rcases entry other q found with ⟨rfl, rfl⟩ | ⟨_, old⟩
    · dsimp only
      omega
    · exact h.above other q old wanted
  · rcases entry a p at_a with ⟨rfl, rfl⟩ | ⟨low, old_a⟩
    · rcases entry b q at_b with ⟨rfl, rfl⟩ | ⟨low, old_b⟩ <;> omega
    · rcases entry b q at_b with ⟨rfl, rfl⟩ | ⟨_, old_b⟩
      · exact (h.passed a p old_a).2
      · exact h.rising a p b q old_a old_b before

theorem raise (found : Table.get pending seq = some p)
    (below : ∀ other q, Table.get pending other = some q → P other → seq < other) :
    Floors P (Table.erase pending seq) sseq dseq (max adflr p.sequence) (max asflr seq) := by
  have stream := h.stream
  have consumer := h.consumer
  obtain ⟨behind, delivered⟩ := h.passed seq p found
  refine (h.erase seq).move (by omega) (by omega) (fun other q there wanted => ?_)
  obtain ⟨_, at_other⟩ := get_of_erase there
  have before := below other q at_other wanted
  have := h.rising seq p other q found at_other before
  have := h.above other q at_other wanted
  omega

end

end Floors

def FloorsOf (P : Nat → Prop) (o : Consumer) : Prop :=
  Floors P o.pending o.sseq o.dseq o.adflr o.asflr

/-- The invariant of a consumer with explicit acknowledgements. -/
structure Sound (o : Consumer) : Prop where
  explicit : o.cfg.ackPolicy = .ackExplicit
  queued : Queued o
  floors : FloorsOf (fun _ => True) o

section Operations

variable {P : Nat → Prop} {o : Consumer} {seq : Nat}

section

variable (h : FloorsOf P o)

include h

theorem FloorsOf.deliverAgain (explicit : o.cfg.ackPolicy = .ackExplicit)
    (there : (Table.get o.pending seq).isSome = true) (ts : Int) (dc : Nat) (now : Int) :
    FloorsOf P (o.deliverMsg seq ts dc now) := by
  obtain ⟨p, found⟩ := isSome_iff_exists.mp there
  have counted : Floors P o.pending o.sseq (o.dseq + 1) o.adflr o.asflr :=
    { h with
      passed := fun other q there => (h.passed other q there).imp_right Nat.lt_succ_of_lt
      consumer := Nat.lt_succ_of_lt h.consumer }
  rw [deliverMsg_eq (by rw [explicit]; decide), found]
  exact counted.sub (all_set (fun _ q there => ⟨q, there, rfl⟩) seq ⟨p, found, rfl⟩)

theorem FloorsOf.deliverFirst (explicit : o.cfg.ackPolicy = .ackExplicit) {next : Nat}
    (ahead : o.sseq ≤ seq) (passes : seq < next) (ts : Int) (dc : Nat) (now : Int) :
    FloorsOf P ({ o with sseq := next }.deliverMsg seq ts dc now) := by
  have new : Table.get o.pending seq = none := by
    cases found : Table.get o.pending seq with
    | none => rfl
    | some p =>
      have := (h.passed seq p found).1
      omega
  rw [deliverMsg_eq (by rw [explicit]; decide), new]
  exact h.track ahead passes now

theorem FloorsOf.dropPending (seq dc : Nat) : FloorsOf P (o.dropPending seq dc) := by
  cases found : Table.get o.pending seq with
  | none => rwa [dropPending_none found]
  | some p =>
    rw [dropPending_some found]
    exact h.floorAfter found

theorem FloorsOf.exceed (seq : Nat) : FloorsOf P (exceed o seq) :=
  h.dropPending seq _

theorem FloorsOf.processAckMsg (explicit : o.cfg.ackPolicy = .ackExplicit) (indexes : Indexes o)
    (sseq dseq : Nat) : FloorsOf P (o.processAckMsg sseq dseq) := by
  by_cases passed : o.sseq ≤ sseq ∧ o.cfg.flowControl = false
  · rwa [processAckMsg_ahead passed.1 passed.2]
  cases found : Table.get o.pending sseq with
  | none =>
    rw [processAckMsg_none explicit indexes passed found]
    exact h
  | some p =>
    rw [processAckMsg_some explicit indexes passed found]
    exact h.floorAfter found

theorem FloorsOf.retime {p : Pending} (found : Table.get o.pending seq = some p) (ts : Int) :
    Floors P (Table.set o.pending seq { p with timestamp := ts }) o.sseq o.dseq o.adflr
      o.asflr :=
  h.sub (all_set (fun _ q there => ⟨q, there, rfl⟩) seq ⟨p, found, rfl⟩)

theorem FloorsOf.processNak (indexes : Indexes o) (sseq dseq dc : Nat) (delay : Option Int)
    (now : Int) : FloorsOf P (o.processNak sseq dseq dc delay now) := by
  unfold Consumer.processNak
  split
  · exact h
  split
  · exact h
  next p delay found =>
    rw [indexes.removeFromRedeliverQueue_eq]
    exact h.retime found _
  · split <;> exact h

theorem FloorsOf.progressUpdate (seq : Nat) (now : Int) :
    FloorsOf P (o.progressUpdate seq now) := by
  rw [Consumer.progressUpdate]
  split
  · exact h
  next p found => exact h.retime found _

theorem FloorsOf.requeue (expired : List Nat) (now : Int) : FloorsOf P (o.requeue expired now) := by
  rw [Consumer.requeue]
  split
  · exact h
  refine h.sub (fun other p found => ?_)
  have same := Queued.shiftTimes_get o.pending (expired.insertionSort (· ≤ ·)) now other
  have shifted : Table.get (shiftTimes o.pending (expired.insertionSort (· ≤ ·)) now)
      other = some p := found
  rw [shifted] at same
  obtain ⟨q, at_other, equal⟩ := map_eq_some_iff.mp same.symm
  exact ⟨q, at_other, equal⟩

end

end Operations

/-! Sweeps. Entries below the first sequence are all taken out in the end; until then the floors are
below the others only. -/

structure SweepSound (P : Nat → Prop) (s : Sweep) (rest : List Nat) : Prop where
  explicit : s.o.cfg.ackPolicy = .ackExplicit
  sweeping : Queued.Sweeping s rest
  floors : FloorsOf P s.o
  left : ∀ seq p, Table.get s.o.pending seq = some p → P seq ∨ seq ∈ rest

namespace SweepSound

variable {P : Nat → Prop} {s : Sweep} {seq : Nat} {rest : List Nat}

theorem left_skip (h : SweepSound P s (seq :: rest)) (wanted : P seq) :
    ∀ other p, Table.get s.o.pending other = some p → P other ∨ other ∈ rest := by
  intro other p found
  rcases h.left other p found with good | later
  · exact .inl good
  · rcases mem_cons.mp later with rfl | later
    · exact .inl wanted
    · exact .inr later

theorem expire (h : SweepSound P s (seq :: rest)) (wanted : P seq) (new : seq ∉ rest) :
    SweepSound P (s.expire seq) rest := by
  have sweeping := h.sweeping.expire new
  have left := h.left_skip wanted
  rw [expire_eq] at sweeping ⊢
  split at sweeping
  next queued =>
    rw [if_pos queued]
    exact ⟨h.explicit, sweeping, h.floors, left⟩
  rename_i not_queued
  rw [if_neg not_queued]
  split at sweeping
  next limit =>
    rw [if_pos limit]
    refine ⟨(congrArg _ (exceed_cfg s.o seq)).trans h.explicit, sweeping, h.floors.exceed seq,
      fun other p found => ?_⟩
    have at_other := (dropPending_get s.o seq (s.o.deliveryCount seq) other).symm.trans found
    exact left other p (get_of_erase at_other).2
  next no_limit =>
    rw [if_neg no_limit]
    exact ⟨h.explicit, sweeping, h.floors, left⟩

theorem visit {fseq : Nat} (h : SweepSound (fseq ≤ ·) s (seq :: rest)) (new : seq ∉ rest)
    (now : Int) : SweepSound (fseq ≤ ·) (s.visit fseq now seq) rest := by
  have sweeping := h.sweeping.visit new fseq now
  obtain ⟨p, found⟩ := isSome_iff_exists.mp (h.sweeping.ahead seq mem_cons_self)
  unfold Sweep.visit at sweeping ⊢
  rw [found] at sweeping ⊢
  dsimp only at sweeping ⊢
  split at sweeping
  next invalid =>
    rw [if_pos invalid]
    have old : seq < fseq := by
      by_contra recent
      have := (h.floors.above seq p found (by omega)).1
      omega
    rw [h.sweeping.queued.index.remove_eq] at sweeping ⊢
    refine ⟨h.explicit, sweeping, ?_, fun other q at_other => ?_⟩
    · exact h.floors.raise found (fun other q _ wanted => by omega)
    · obtain ⟨different, old_other⟩ := get_of_erase at_other
      rcases h.left other q old_other with good | later
      · exact .inl good
      · exact .inr ((mem_cons.mp later).resolve_left (fun same => different same.symm))
  next valid =>
    rw [if_neg valid]
    have recent : fseq ≤ seq := by omega
    split at sweeping
    · rename_i late
      rw [if_pos late]
      exact h.expire recent new
    · rename_i early
      rw [if_neg early]
      exact ⟨h.explicit, sweeping, h.floors, h.left_skip recent⟩

theorem fold {visit : Sweep → Nat → Sweep} {order : List Nat}
    (one : ∀ (s : Sweep) (seq : Nat) (rest : List Nat), SweepSound P s (seq :: rest) →
      seq ∉ rest → SweepSound P (visit s seq) rest)
    (nodup : order.Nodup) (h : SweepSound P s order) : SweepSound P (order.foldl visit s) [] := by
  induction order generalizing s with
  | nil => exact h
  | cons seq rest ih =>
    obtain ⟨new, later⟩ := nodup_cons.mp nodup
    exact ih later (one s seq rest h new)

theorem finish (h : SweepSound P s []) : FloorsOf (fun _ => True) s.o :=
  h.floors.finish (fun seq p found => (h.left seq p found).resolve_right not_mem_nil)

end SweepSound

/-! Purges. -/

/-- No pending message that a purge of less than the consumer leaves comes before one it takes. -/
def LeavesNoGap (o : Consumer) (start : Nat) (gone : Nat → Bool) : Prop :=
  o.asflr < start → ∀ kept lost, (Table.get o.pending kept).isSome = true →
    (Table.get o.pending lost).isSome = true → start ≤ kept → gone kept = false →
      gone lost = true → lost < kept

/-- The sweep of a purge: what is still to be visited, or stays. -/
structure PurgeSound (base : Consumer) (start : Nat) (isWider : Bool) (gone : Nat → Bool)
    (o : Consumer) (rest : List Nat) : Prop where
  asflr : o.asflr = start - 1
  floors : FloorsOf (fun seq => ¬ PurgesEntry base start isWider gone seq) o
  old : ∀ seq p, Table.get o.pending seq = some p → Table.get base.pending seq = some p
  left : ∀ seq p, Table.get o.pending seq = some p →
    ¬ PurgesEntry base start isWider gone seq ∨ seq ∈ rest

namespace PurgeSound

variable {base o : Consumer} {start seq : Nat} {isWider : Bool} {gone : Nat → Bool}
  {rest : List Nat}

section

variable (lower : base.asflr < start) (order : isWider = true → LeavesNoGap base start gone)

include lower order

theorem below (h : PurgeSound base start isWider gone o rest) {p : Pending}
    (found : Table.get o.pending seq = some p)
    (goes : seq < start ∨ isWider = true ∧ gone seq = true) {other : Nat} {q : Pending}
    (at_other : Table.get o.pending other = some q)
    (stays : ¬ PurgesEntry base start isWider gone other) : seq < other := by
  have kept : ¬ (other < start ∨ isWider = true ∧ gone other = true) :=
    fun taken => stays ⟨lower, taken⟩
  have high : start ≤ other := by
    by_contra low
    exact kept (.inl (by omega))
  rcases goes with low | ⟨wider, lost⟩
  · omega
  refine order wider lower other seq ?_ ?_ high ?_ lost
  · rw [h.old other q at_other]
    rfl
  · rw [h.old seq p found]
    rfl
  · rw [Bool.eq_false_iff]
    exact fun gone_other => kept (.inr ⟨wider, gone_other⟩)

theorem entry (h : PurgeSound base start isWider gone o (seq :: rest)) :
    PurgeSound base start isWider gone (o.purgeEntry isWider gone seq) rest := by
  have goes_iff : (seq ≤ o.asflr ∨ isWider = true ∧ gone seq = true) ↔
      (seq < start ∨ isWider = true ∧ gone seq = true) := by
    rw [h.asflr]
    exact or_congr_left (by omega)
  have pending := @purgeEntry_pending o isWider gone seq
  have sub : ∀ other q, Table.get (o.purgeEntry isWider gone seq).pending other = some q →
      Table.get o.pending other = some q ∧
        ¬ (seq = other ∧ (seq < start ∨ isWider = true ∧ gone seq = true)) := by
    intro other q at_other
    rw [pending] at at_other
    split at at_other
    · cases at_other
    next kept => exact ⟨at_other, fun both => kept ⟨both.1, goes_iff.mpr both.2⟩⟩
  refine ⟨(purgeEntry_frame o seq).asflr.trans h.asflr, ?_,
    fun other q at_other => h.old other q (sub other q at_other).1, fun other q at_other => ?_⟩
  · rw [purgeEntry]
    split
    · exact h.floors
    rename_i p found
    split
    next goes =>
      have raised := h.floors.raise found (fun other q at_other stays =>
        below lower order h found (goes_iff.mp goes) at_other stays)
      obtain ⟨_, delivered⟩ := h.floors.passed seq p found
      have level : Floors (fun seq => ¬ PurgesEntry base start isWider gone seq)
          (Table.erase o.pending seq) o.sseq o.dseq (max o.adflr p.sequence) o.asflr :=
        raised.move h.floors.stream raised.consumer (fun other q at_other stays =>
          ⟨(h.floors.above other q (get_of_erase at_other).2 stays).1,
            (raised.above other q at_other stays).2⟩)
      simp only [updateAcks]
      split
      · rename_i higher
        have top : max o.dseq p.sequence = o.dseq := max_eq_left (le_of_lt delivered)
        rw [max_eq_right (le_of_lt higher)] at level
        simpa only [FloorsOf, top] using level
      · rename_i lower
        rw [max_eq_left (le_of_not_gt lower)] at level
        exact level
    · exact h.floors
  · obtain ⟨at_old, not_taken⟩ := sub other q at_other
    rcases h.left other q at_old with stays | later
    · exact .inl stays
    · rcases mem_cons.mp later with rfl | later
      · exact .inl (fun taken => not_taken ⟨rfl, taken.2⟩)
      · exact .inr later

theorem fold {seqs : List Nat} (h : PurgeSound base start isWider gone o seqs) :
    PurgeSound base start isWider gone (seqs.foldl (purgeEntry isWider gone) o) [] := by
  induction seqs generalizing o with
  | nil => exact h
  | cons seq rest ih => exact ih (entry lower order h)

end

theorem finish (h : PurgeSound base start isWider gone o []) : FloorsOf (fun _ => True) o :=
  h.floors.finish (fun seq p found => (h.left seq p found).resolve_right not_mem_nil)

end PurgeSound

variable {o : Consumer}

theorem FloorsOf.reset {o' : Consumer} (h : FloorsOf (fun _ => True) o) (empty : o'.pending = [])
    (sseq : o'.sseq = o.sseq) (dseq : o'.dseq = o.dseq) (adflr : o'.adflr = o.dseq - 1)
    (asflr : o'.asflr = o.sseq - 1) : FloorsOf (fun _ => True) o' := by
  have stream := h.stream
  have consumer := h.consumer
  rw [FloorsOf, empty]
  exact .empty (by omega) (by omega)

theorem FloorsOf.purge (h : FloorsOf (fun _ => True) o) {order : List Nat}
    (iterates : Iterates order o) (sseq slseq : Nat) (isWider : Bool) (gone : Nat → Bool)
    (leaves : isWider = true → LeavesNoGap o (purgeStart sseq slseq isWider) gone) :
    FloorsOf (fun _ => True) (o.purge sseq slseq isWider gone order) := by
  cases leader : o.leader with
  | false =>
    rw [Consumer.purge, if_pos leader]
    exact h
  | true =>
    rw [purge_eq leader]
    generalize purgeStart sseq slseq isWider = start at leaves ⊢
    have stream := h.stream
    have swept : FloorsOf (fun _ => True) (purgeSwept o start isWider gone order) := by
      rw [purgeSwept]
      split
      next lower =>
        have start_sound : PurgeSound o start isWider gone
            { o with sseq := max o.sseq start, asflr := start - 1 } order := by
          refine ⟨rfl, ?_, fun _ _ found => found,
            fun seq p found => .inr ((iterates.2 seq).mpr (by rw [found]; rfl))⟩
          refine ⟨fun seq p found => ?_, fun seq p found stays => ?_, h.rising, ?_, h.consumer⟩
          · have := h.passed seq p found
            dsimp only
            omega
          · have kept : ¬ seq < start := fun low => stays ⟨lower, .inl low⟩
            have := (h.above seq p found trivial).2
            dsimp only
            omega
          · dsimp only
            omega
        exact (start_sound.fold lower leaves).finish
      · refine ⟨fun seq p found => ?_, h.above, h.rising, ?_, h.consumer⟩
        · have := h.passed seq p found
          dsimp only
          omega
        · dsimp only
          omega
    generalize purgeSwept o start isWider gone order = s at swept ⊢
    have settled : FloorsOf (fun _ => True) (purgeSettled s) := by
      rw [purgeSettled]
      split
      next empty => exact swept.reset empty rfl rfl rfl rfl
      · exact swept
    change FloorsOf (fun _ => True) (purgeSettled s).purgeQueue
    rw [purgeQueue]
    split <;> exact settled

/-! Steps and runs. -/

/-- The events of the property: deliveries that happen, and everything else except failures that
are reported later. -/
def Listed (o : Consumer) : Event → Prop
  | .didNotDeliver _ => False
  | .redeliver (.found _) request _ => o.cfg.pull = true → request = true
  | _ => True

/-- A sweep of more than 1024 entries that stops early finds nothing below the first sequence, and
a purge of less than the consumer leaves no gap. -/
def Orderly (o : Consumer) : Event → Prop
  | .checkPending fseq _ _ (some _) =>
    1024 < o.pending.length → ∀ seq, (Table.get o.pending seq).isSome = true → fseq ≤ seq
  | .purge sseq _ true gone _ => LeavesNoGap o sseq gone
  | _ => True

namespace Sound

variable {o : Consumer}

theorem attempt (h : Sound o) {seq : Nat} (there : (Table.get o.pending seq).isSome = true)
    {loaded : Loaded} {request : Bool} {now : Int}
    (listed : Listed o (.redeliver loaded request now)) (dc : Nat) :
    FloorsOf (fun _ => True) (o.attempt seq dc loaded request now) := by
  unfold Consumer.attempt
  split
  · exact h.floors.dropPending seq dc
  cases loaded with
  | failed => exact h.floors
  | missing =>
    dsimp only
    split
    · exact @FloorsOf.processAckMsg _ (o.decDeliveryCount seq) h.floors h.explicit h.queued.index
        _ _
    · exact h.floors
  | found ts =>
    dsimp only
    split
    next waits =>
      have given := listed waits.1
      rw [waits.2] at given
      cases given
    · exact h.floors.deliverAgain h.explicit there ts dc now

variable {order : List Nat}

theorem sweep (h : Sound o) (nodup : order.Nodup)
    (there : ∀ seq ∈ order, (Table.get o.pending seq).isSome = true) {P : Nat → Prop}
    (left : ∀ seq p, Table.get o.pending seq = some p → P seq ∨ seq ∈ order)
    {visit : Sweep → Nat → Sweep}
    (one : ∀ (s : Sweep) (seq : Nat) (rest : List Nat), SweepSound P s (seq :: rest) →
      seq ∉ rest → SweepSound P (visit s seq) rest) :
    SweepSound P (order.foldl visit ⟨o, [], false⟩) [] :=
  SweepSound.fold one nodup ⟨h.explicit, h.queued.sweep_start there,
    ⟨h.floors.passed, fun seq p found _ => h.floors.above seq p found trivial, h.floors.rising,
      h.floors.stream, h.floors.consumer⟩, left⟩

theorem checkPending (h : Sound o) (iterates : Iterates order o) {fseq : Nat} {now : Int}
    {bail : Option Nat} (orderly : Orderly o (.checkPending fseq now order bail)) :
    FloorsOf (fun _ => True) (o.checkPending fseq now order bail) := by
  have one : ∀ (s : Sweep) (seq : Nat) (rest : List Nat),
      SweepSound (fseq ≤ ·) s (seq :: rest) → seq ∉ rest →
        SweepSound (fseq ≤ ·) (Sweep.visit fseq now s seq) rest :=
    fun s seq rest sound new => sound.visit new now
  unfold Consumer.checkPending
  cases bail with
  | some visited =>
    dsimp only
    split
    next many =>
      refine (h.sweep (iterates.1.sublist (take_sublist _ _)) ?_ ?_ one).finish
      · exact fun seq inside => (iterates.2 seq).mp (mem_of_mem_take inside)
      · exact fun seq p found => .inl (orderly many seq (by rw [found]; rfl))
    · exact h.floors
  | none =>
    have swept := (h.sweep iterates.1 (fun seq => (iterates.2 seq).mp)
      (fun seq p found => .inr ((iterates.2 seq).mpr (by rw [found]; rfl))) one).finish
    dsimp only
    generalize order.foldl (Sweep.visit fseq now) ⟨o, [], false⟩ = s at swept ⊢
    have requeued := swept.requeue s.expired now
    generalize s.o.requeue s.expired now = r at requeued ⊢
    have settled : FloorsOf (fun _ => True) (if r.pending = [] then
        { r with rdq := [], rdqi := ∅, adflr := r.dseq - 1, asflr := r.sseq - 1 } else r) := by
      split
      next empty => exact requeued.reset empty rfl rfl rfl rfl
      · exact requeued
    split <;> exact settled

theorem forceExpirePending (h : Sound o) (iterates : Iterates order o) (now : Int) :
    FloorsOf (fun _ => True) (o.forceExpirePending now order) := by
  have swept := h.sweep iterates.1 (fun seq => (iterates.2 seq).mp)
    (fun seq p found => .inr ((iterates.2 seq).mpr (by rw [found]; rfl)))
    (fun s seq rest sound new => @SweepSound.expire (fun _ => True) s seq rest sound trivial new)
  exact swept.finish.requeue _ now

theorem step (h : Sound o) {e : Event} (valid : Valid o e) (listed : Listed o e)
    (orderly : Orderly o e) : Sound (o.step e) := by
  have stays : ¬ Queued.TakesBack o e := by
    intro takes
    cases e with
    | redeliver loaded request now =>
      cases loaded with
      | found ts =>
        cases request with
        | false => cases listed takes.1
        | true => exact takes
      | missing => exact takes
      | failed => exact takes
    | _ => exact takes
  refine ⟨(congrArg ConsumerConfig.ackPolicy (step_cfg o e)).trans h.explicit,
    h.queued.step valid stays, ?_⟩
  cases e with
  | deliver seq resume ts now =>
    exact h.floors.deliverFirst h.explicit valid.deliver.1 valid.deliver.2 ts 1 now
  | skip last =>
    obtain ⟨next, skipped, low⟩ := valid.skip
    rw [skipped]
    exact { h.floors with
      passed := fun seq p found => (h.floors.passed seq p found).imp_left (·.trans_le low)
      stream := h.floors.stream.trans_le low }
  | redeliver loaded request now =>
    change FloorsOf _ (o.redeliver loaded request now)
    cases queue : o.rdq with
    | nil =>
      rw [Indexes.redeliver_nil queue]
      exact h.floors
    | cons seq rest =>
      have there := h.queued.waiting seq (queue ▸ mem_cons_self)
      rw [h.queued.index.redeliver_cons queue]
      exact @attempt (turned o seq rest) ⟨h.explicit, (h.queued.turned queue).1, h.floors⟩ seq
        there loaded request now listed _
  | ack sseq dseq => exact h.floors.processAckMsg h.explicit h.queued.index sseq dseq
  | term sseq dseq => exact h.floors.processAckMsg h.explicit h.queued.index sseq dseq
  | nak sseq dseq dc delay now => exact h.floors.processNak h.queued.index sseq dseq dc delay now
  | progress seq now => exact h.floors.progressUpdate seq now
  | didNotDeliver seq => exact absurd listed id
  | checkPending fseq now order bail => exact h.checkPending valid orderly
  | forceExpirePending now order => exact h.forceExpirePending valid now
  | purge sseq slseq isWider gone order =>
    refine h.floors.purge valid sseq slseq isWider gone (fun wider => ?_)
    subst wider
    have start : purgeStart sseq slseq true = sseq := if_neg (fun both => by cases both.2)
    rw [start]
    exact orderly

end Sound

structure Unused (o : Consumer) : Prop where
  pending : o.pending = []
  rdq : o.rdq = []
  rdqi : o.rdqi = ∅
  stream : o.asflr < o.sseq
  consumer : o.adflr < o.dseq

theorem Unused.queued (h : Unused o) : Queued o :=
  Queued.cleared h.pending rfl h.rdq h.rdqi

theorem Unused.sound (h : Unused o) (explicit : o.cfg.ackPolicy = .ackExplicit) :
    Sound o where
  explicit := explicit
  queued := h.queued
  floors := by
    rw [FloorsOf, h.pending]
    exact .empty h.stream h.consumer

def BelowPending (o : Consumer) : Prop :=
  ∀ seq p, Table.get o.pending seq = some p →
    o.asflr < seq ∧ seq < o.sseq ∧ o.adflr < p.sequence ∧ p.sequence < o.dseq

def explicitAcks : ConsumerConfig := ⟨.ackExplicit, -1, 30, [], false, true⟩

def newConsumer (cfg : ConsumerConfig) (subjf : List Server.Bytes) : Consumer :=
  ⟨cfg, true, subjf, 1, 1, 0, 0, [], [], [], ∅, ⟨⟨0, 0⟩, ⟨0, 0⟩, [], []⟩⟩

theorem newConsumer_unused (cfg : ConsumerConfig) (subjf : List Server.Bytes) :
    Unused (newConsumer cfg subjf) :=
  ⟨rfl, rfl, rfl, Nat.zero_lt_one, Nat.zero_lt_one⟩

end LinearNats.JetStream
