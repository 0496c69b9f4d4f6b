import LinearNats.Run
import LinearNats.Store.Wheel

/-! The hash wheel under every sequence of its operations, with the count of its entries and with
any callback. The lowest times are kept lazily, and both are used to leave early: the invariant is
that each of them is a lower bound of what it stands for. -/
namespace LinearNats.Thw
open List Table

structure Wheel extends HashWheel where
  count : Nat
  deriving DecidableEq

structure Sweep where
  entries : List (Nat × Int)
  count : Nat
  slotLowest : Int
  called : List (Nat × Int)

/-- One entry of the loop. An entry that the callback takes is left out of the lowest time. -/
def Sweep.visit (ts : Int) (callback : Nat → Int → Bool) (w : Sweep) (e : Nat × Int) : Sweep :=
  let called := if e.2 ≤ ts then w.called ++ [e] else w.called
  if e.2 ≤ ts ∧ callback e.1 e.2 = true then
    -- only if the callback has not removed the entry itself
    match Table.get w.entries e.1 with
    | some _ => ⟨Table.erase w.entries e.1, w.count - 1, w.slotLowest, called⟩
    | none => { w with called := called }
  else ⟨w.entries, w.count, if e.2 < w.slotLowest then e.2 else w.slotLowest, called⟩

namespace Wheel

def new : Wheel := ⟨newHashWheel, 0⟩

def add (hw : Wheel) (seq : Nat) (expires : Int) : Wheel :=
  let s := (Table.get hw.wheel (getPosition expires)).getD newSlot
  ⟨hw.toHashWheel.add seq expires,
    if (Table.get s.entries seq).isSome then hw.count else hw.count + 1⟩

/-- None is `ErrTaskNotFound`. -/
def remove (hw : Wheel) (seq : Nat) (expires : Int) : Option Wheel :=
  match (Table.get hw.wheel (getPosition expires)).bind (fun s => Table.get s.entries seq) with
  | none => none
  | some _ => some ⟨hw.toHashWheel.remove seq expires, hw.count - 1⟩

def update (hw : Wheel) (seq : Nat) (oldExpires newExpires : Int) : Option Wheel :=
  (hw.remove seq oldExpires).map (fun hw => hw.add seq newExpires)

def sweepSlot (order : Order) (ts : Int) (callback : Nat → Int → Bool) (s : Slot) (count : Nat) :
    Sweep :=
  (order.visit s.entries).foldl (Sweep.visit ts callback) ⟨s.entries, count, maxInt64, []⟩

/-- The loop of `expireTasks` over the slots. -/
def expireFrom (order : Order) (ts : Int) (callback : Nat → Int → Bool) :
    List Nat → Wheel → Int → Wheel × Int × List (Nat × Int)
  | [], hw, globalLowest => (hw, globalLowest, [])
  | pos :: rest, hw, globalLowest =>
    match Table.get hw.wheel pos with
    | none => expireFrom order ts callback rest hw globalLowest
    | some s =>
      if ts < s.lowest then
        expireFrom order ts callback rest hw
          (if s.lowest < globalLowest then s.lowest else globalLowest)
      else
        let w := sweepSlot order ts callback s hw.count
        let out :=
          if w.entries = [] then
            expireFrom order ts callback rest
              ⟨⟨Table.erase hw.wheel pos, hw.lowest⟩, w.count⟩ globalLowest
          else
            expireFrom order ts callback rest
              ⟨⟨Table.set hw.wheel pos ⟨w.entries, w.slotLowest⟩, hw.lowest⟩, w.count⟩
              (if w.slotLowest < globalLowest then w.slotLowest else globalLowest)
        (out.1, out.2.1, w.called ++ out.2.2)

/-- The wheel afterwards and the entries on which the callback was called, in order. -/
def expireTasks (order : Order) (hw : Wheel) (ts : Int) (callback : Nat → Int → Bool) :
    Wheel × List (Nat × Int) :=
  if ts < hw.lowest then (hw, [])
  else
    let out := expireFrom order ts callback (List.range wheelSize) hw maxInt64
    (⟨⟨out.1.wheel, out.2.1⟩, out.1.count⟩, out.2.2)

def getNextExpiration (hw : Wheel) (before : Int) : Int :=
  if hw.lowest < before then hw.lowest else maxInt64

def stored (hw : Wheel) : List (Nat × Nat × Int) :=
  hw.wheel.flatMap (fun p => p.2.entries.map (fun e => (p.1, e)))

end Wheel

/-! One slot. -/

def due (ts : Int) (e : Nat × Int) : Bool := decide (e.2 ≤ ts)

def taken (ts : Int) (callback : Nat → Int → Bool) (e : Nat × Int) : Bool :=
  due ts e && callback e.1 e.2

/-- What the loop over the entries of a slot leaves behind when it has seen the entries `vs`. -/
structure Sweep.Done (ts : Int) (callback : Nat → Int → Bool) (vs : List (Nat × Int))
    (before after : Sweep) : Prop where
  entries : after.entries =
    before.entries.filter (fun e => !(decide (e ∈ vs) && taken ts callback e))
  called : after.called = before.called ++ vs.filter (due ts)
  count : after.count + before.entries.length = before.count + after.entries.length
  lower : after.slotLowest ≤ before.slotLowest
  lowest : ∀ v ∈ vs, taken ts callback v = false → after.slotLowest ≤ v.2

variable {e : Nat × Int} {pos : Nat}

theorem erase_eq_filter_ne {t : List (Nat × Int)} (keys : (t.map Prod.fst).Nodup) (inside : e ∈ t) :
    Table.erase t e.1 = t.filter (fun x => decide (x ≠ e)) := by
  refine filter_congr (fun x there => ?_)
  simp only [ne_eq, decide_eq_decide, not_iff_not]
  constructor
  · intro same
    have found := get_of_mem keys (show (x.1, x.2) ∈ t from there)
    rw [same, get_of_mem keys (show (e.1, e.2) ∈ t from inside)] at found
    exact Prod.ext same (Option.some.inj found).symm
  · rintro rfl
    rfl

variable {ts : Int} {callback : Nat → Int → Bool}

theorem Sweep.visit_done {w : Sweep} (keys : (w.entries.map Prod.fst).Nodup)
    (inside : e ∈ w.entries) (room : w.entries.length ≤ w.count) :
    Sweep.Done ts callback [e] w (w.visit ts callback e) := by
  have found := get_of_mem keys (show (e.1, e.2) ∈ w.entries from inside)
  have called : (if e.2 ≤ ts then w.called ++ [e] else w.called) =
      w.called ++ [e].filter (due ts) := by
    by_cases late : e.2 ≤ ts <;> simp [due, late]
  by_cases gone : taken ts callback e = true
  · have both : e.2 ≤ ts ∧ callback e.1 e.2 = true := by simpa [taken, due] using gone
    have filled := length_erase keys found
    have entries : Table.erase w.entries e.1 =
        w.entries.filter (fun x => !(decide (x ∈ [e]) && taken ts callback x)) := by
      rw [erase_eq_filter_ne keys inside]
      refine filter_congr (fun x _ => ?_)
      by_cases same : x = e
      · simp [same, gone]
      · simp [same]
    have result : w.visit ts callback e = ⟨Table.erase w.entries e.1, w.count - 1, w.slotLowest,
        w.called ++ [e].filter (due ts)⟩ := by
      simp only [visit, if_pos both, found, called]
    rw [result]
    refine ⟨entries, rfl, ?_, le_rfl, ?_⟩
    · simp only
      omega
    · intro v only stays
      rw [mem_singleton.mp only, gone] at stays
      cases stays
  · have stays : taken ts callback e = false := by simpa using gone
    have notBoth : ¬ (e.2 ≤ ts ∧ callback e.1 e.2 = true) := by
      simpa [taken, due] using gone
    have result : w.visit ts callback e = ⟨w.entries, w.count,
        if e.2 < w.slotLowest then e.2 else w.slotLowest, w.called ++ [e].filter (due ts)⟩ := by
      simp only [visit, if_neg notBoth, called]
    rw [result]
    refine ⟨?_, rfl, rfl, ?_, ?_⟩
    · refine (filter_eq_self.mpr (fun x _ => ?_)).symm
      by_cases same : x = e
      · simp [same, stays]
      · simp [same]
    · simp only
      split <;> omega
    · intro v only _
      rw [mem_singleton.mp only]
      simp only
      split <;> omega

theorem Sweep.Done.trans {vs : List (Nat × Int)} {a b c : Sweep} (first : Done ts callback [e] a b)
    (rest : Done ts callback vs b c) : Done ts callback (e :: vs) a c := by
  constructor
  · rw [rest.entries, first.entries, filter_filter]
    refine filter_congr (fun x _ => ?_)
    cases taken ts callback x <;> simp [Bool.and_comm]
  · rw [rest.called, first.called, append_assoc, ← filter_append, singleton_append]
  · have one := first.count
    have more := rest.count
    omega
  · exact rest.lower.trans first.lower
  · refine forall_mem_cons.mpr ⟨fun stays => ?_, rest.lowest⟩
    exact rest.lower.trans (first.lowest _ mem_cons_self stays)

/-- The loop over a slot: by induction on the entries still to come, which are all in the slot,
since only the entries already seen are ever deleted. -/
theorem Sweep.foldl_done {vs : List (Nat × Int)} {w : Sweep}
    (keys : (w.entries.map Prod.fst).Nodup) (once : vs.Nodup) (inside : ∀ v ∈ vs, v ∈ w.entries)
    (room : w.entries.length ≤ w.count) :
    Done ts callback vs w (vs.foldl (Sweep.visit ts callback) w) := by
  induction vs generalizing w with
  | nil => exact ⟨by simp, by simp, rfl, le_rfl, by simp⟩
  | cons e vs ih =>
    obtain ⟨new, once⟩ := nodup_cons.mp once
    have first : Done ts callback [e] w (w.visit ts callback e) :=
      visit_done keys (inside e mem_cons_self) room
    refine first.trans (ih ?_ once ?_ ?_)
    · rw [first.entries]
      exact keys.sublist (filter_sublist.map _)
    · intro v later
      rw [first.entries, mem_filter]
      refine ⟨inside v (mem_cons_of_mem e later), ?_⟩
      have other : v ≠ e := by
        rintro rfl
        exact new later
      simp [other]
    · have one := first.count
      omega

structure Slot.WF (s : Slot) : Prop where
  keys : (s.entries.map Prod.fst).Nodup
  filled : s.entries ≠ []
  lowest : ∀ e ∈ s.entries, s.lowest ≤ e.2

theorem sweepSlot_done {order : Order} {s : Slot} (wf : s.WF) {count : Nat}
    (room : s.entries.length ≤ count) :
    Sweep.Done ts callback (order.visit s.entries) ⟨s.entries, count, maxInt64, []⟩
      (Wheel.sweepSlot order ts callback s count) :=
  Sweep.foldl_done wf.keys ((order.perm s.entries).nodup_iff.mpr (List.Nodup.of_map Prod.fst wf.keys))
    (fun _ member => (order.perm s.entries).subset member) room

/-! The whole wheel. -/

theorem stored_set (wheel : List (Nat × Slot)) (low : Int) (count pos : Nat) (s : Slot) :
    (⟨⟨Table.set wheel pos s, low⟩, count⟩ : Wheel).stored =
      s.entries.map (fun e => (pos, e)) ++
        (⟨⟨Table.erase wheel pos, low⟩, count⟩ : Wheel).stored := rfl

theorem stored_split {hw : Wheel} (keys : (hw.wheel.map Prod.fst).Nodup) {s : Slot}
    (found : Table.get hw.wheel pos = some s) (low : Int) (count : Nat) :
    hw.stored.Perm (s.entries.map (fun e => (pos, e)) ++
      (⟨⟨Table.erase hw.wheel pos, low⟩, count⟩ : Wheel).stored) :=
  (cons_erase_perm keys found).flatMap_right _

theorem position_of_stored {hw : Wheel} {x : Nat × Nat × Int} (member : x ∈ hw.stored) :
    ∃ s, (x.1, s) ∈ hw.wheel ∧ x.2 ∈ s.entries := by
  obtain ⟨⟨pos, s⟩, there, inside⟩ := mem_flatMap.mp member
  obtain ⟨e, among, rfl⟩ := mem_map.mp inside
  exact ⟨s, there, among⟩

theorem stored_erase_ne {wheel : List (Nat × Slot)} {low : Int} {count : Nat} {x : Nat × Nat × Int}
    (member : x ∈ (⟨⟨Table.erase wheel pos, low⟩, count⟩ : Wheel).stored) : x.1 ≠ pos := by
  obtain ⟨s, there, _⟩ := position_of_stored member
  simpa using (mem_filter.mp there).2

structure Expired (ts : Int) (callback : Nat → Int → Bool) (positions : List Nat)
    (before after : Wheel) (called : List (Nat × Int)) : Prop where
  left : after.stored.Perm
    (before.stored.filter (fun x => !(decide (x.1 ∈ positions) && taken ts callback x.2)))
  called : called.Perm
    ((before.stored.filter (fun x => decide (x.1 ∈ positions) && due ts x.2)).map Prod.snd)

theorem Expired.trans {positions : List Nat} {a b c : Wheel} {here later : List (Nat × Int)}
    (new : pos ∉ positions) (first : Expired ts callback [pos] a b here)
    (rest : Expired ts callback positions b c later) :
    Expired ts callback (pos :: positions) a c (here ++ later) := by
  constructor
  · refine rest.left.trans ((first.left.filter _).trans ?_)
    rw [filter_filter]
    refine List.Perm.of_eq (filter_congr (fun x _ => ?_))
    cases taken ts callback x.2 <;> simp [Bool.and_comm]
  · have split := (filter_append_perm (fun x : Nat × Nat × Int => decide (x.1 = pos))
      (a.stored.filter (fun x => decide (x.1 ∈ pos :: positions) && due ts x.2))).map Prod.snd
    have onePos : a.stored.filter (fun x => decide (x.1 ∈ [pos]) && due ts x.2) =
        (a.stored.filter (fun x => decide (x.1 ∈ pos :: positions) && due ts x.2)).filter
          (fun x => decide (x.1 = pos)) := by
      rw [filter_filter]
      refine filter_congr (fun x _ => ?_)
      by_cases same : x.1 = pos <;> simp [same]
    have others : b.stored.filter (fun x => decide (x.1 ∈ positions) && due ts x.2) |>.Perm
        ((a.stored.filter (fun x => decide (x.1 ∈ pos :: positions) && due ts x.2)).filter
          (fun x => !decide (x.1 = pos))) := by
      refine (first.left.filter _).trans (.of_eq ?_)
      rw [filter_filter, filter_filter]
      refine filter_congr (fun x _ => ?_)
      by_cases same : x.1 = pos
      · simp [same, new]
      · simp [same]
    rw [map_append, ← onePos] at split
    exact (first.called.append (rest.called.trans (others.map _))).trans split

/-- The invariant without the wheel's own lowest time, which the loop leaves alone. -/
structure Wheel.Sound (hw : Wheel) : Prop where
  keys : (hw.wheel.map Prod.fst).Nodup
  slots : ∀ p ∈ hw.wheel, p.1 < wheelSize ∧ p.2.WF
  count : hw.count = hw.stored.length

namespace Wheel

section

variable {hw : Wheel} (sound : hw.Sound) {pos : Nat} {s : Slot}
  (found : Table.get hw.wheel pos = some s)

include sound found

theorem Sound.slot : pos < wheelSize ∧ s.WF :=
  sound.slots (pos, s) (mem_of_get found)

theorem Sound.entries_le : s.entries.length ≤ hw.count := by
  have split := (stored_split sound.keys found hw.lowest hw.count).length_eq
  rw [length_append, length_map] at split
  rw [sound.count]
  omega

end

/-- A slot is replaced by what the callback leaves of it; nil if that is nothing. -/
def put (hw : Wheel) (pos : Nat) (w : Sweep) : Wheel :=
  if w.entries = [] then ⟨⟨Table.erase hw.wheel pos, hw.lowest⟩, w.count⟩
  else ⟨⟨Table.set hw.wheel pos ⟨w.entries, w.slotLowest⟩, hw.lowest⟩, w.count⟩

theorem put_stored (hw : Wheel) (pos : Nat) (w : Sweep) :
    (hw.put pos w).stored = w.entries.map (fun e => (pos, e)) ++
      (⟨⟨Table.erase hw.wheel pos, hw.lowest⟩, hw.count⟩ : Wheel).stored := by
  rw [put]
  split
  next empty =>
    rw [empty]
    rfl
  · rfl

variable {w : Sweep} {positions : List Nat} {hw' : Wheel}

theorem mem_put {hw : Wheel} {pos : Nat} {p : Nat × Slot} (member : p ∈ (hw.put pos w).wheel) :
    (p = (pos, ⟨w.entries, w.slotLowest⟩) ∧ w.entries ≠ []) ∨ (p ∈ hw.wheel ∧ p.1 ≠ pos) := by
  rw [put] at member
  split at member
  · have kept := mem_filter.mp member
    exact .inr ⟨kept.1, by simpa using kept.2⟩
  rename_i filled
  rcases mem_cons.mp member with rfl | old
  · exact .inl ⟨rfl, filled⟩
  · have kept := mem_filter.mp old
    exact .inr ⟨kept.1, by simpa using kept.2⟩

variable {hw : Wheel} {pos : Nat} {s : Slot} {order : Order}

theorem sweepSlot_entries (wf : s.WF) {count : Nat} (room : s.entries.length ≤ count) :
    (sweepSlot order ts callback s count).entries =
      s.entries.filter (fun e => !taken ts callback e) := by
  rw [(sweepSlot_done wf room).entries]
  refine filter_congr (fun e inside => ?_)
  have visited : e ∈ order.visit s.entries := (order.perm s.entries).mem_iff.mpr inside
  simp [visited]

theorem put_count (hw : Wheel) (pos : Nat) (w : Sweep) : (hw.put pos w).count = w.count := by
  rw [put]
  split <;> rfl

section

variable (sound : hw.Sound) (found : Table.get hw.wheel pos = some s)

include sound found

theorem put_sound (keys : (w.entries.map Prod.fst).Nodup)
    (lowest : ∀ e ∈ w.entries, w.slotLowest ≤ e.2)
    (count : w.count + s.entries.length = hw.count + w.entries.length) : (hw.put pos w).Sound := by
  constructor
  · rw [put]
    split
    · exact keys_erase sound.keys pos
    · exact keys_set sound.keys pos _
  · intro p member
    rcases mem_put member with ⟨rfl, filled⟩ | ⟨old, _⟩
    · exact ⟨(sound.slot found).1, keys, filled, lowest⟩
    · exact sound.slots p old
  · have size := (stored_split sound.keys found hw.lowest hw.count).length_eq
    have before := sound.count
    rw [put_count, put_stored]
    simp only [length_append, length_map] at size ⊢
    omega

theorem sweepSlot_sound : (hw.put pos (sweepSlot order ts callback s hw.count)).Sound := by
  obtain ⟨_, wf⟩ := sound.slot found
  have room := sound.entries_le found
  have done : Sweep.Done ts callback _ _ (sweepSlot order ts callback s hw.count) :=
    sweepSlot_done wf room
  have entries : (sweepSlot order ts callback s hw.count).entries =
      s.entries.filter (fun e => !taken ts callback e) := sweepSlot_entries wf room
  refine put_sound sound found ?_ ?_ done.count
  · rw [entries]
    exact wf.keys.sublist (filter_sublist.map _)
  · intro e inside
    rw [entries, mem_filter] at inside
    exact done.lowest e ((order.perm s.entries).mem_iff.mpr inside.1) (by simpa using inside.2)

theorem put_expired :
    Expired ts callback [pos] hw (hw.put pos (sweepSlot order ts callback s hw.count))
      (sweepSlot order ts callback s hw.count).called := by
  obtain ⟨_, wf⟩ := sound.slot found
  have room := sound.entries_le found
  have split := stored_split sound.keys found hw.lowest hw.count
  constructor
  · rw [put_stored, sweepSlot_entries wf room]
    refine .symm ((split.filter _).trans (.of_eq ?_))
    rw [filter_append, filter_map]
    congr 1
    · congr 1
      refine filter_congr (fun e _ => ?_)
      simp
    · refine filter_eq_self.mpr (fun x member => ?_)
      simp [stored_erase_ne member]
  · rw [(sweepSlot_done wf room).called, nil_append]
    refine ((order.perm s.entries).filter _).trans (.symm (((split.filter _).map _).trans (.of_eq ?_)))
    rw [filter_append, filter_map, map_append, map_map]
    have none : (⟨⟨Table.erase hw.wheel pos, hw.lowest⟩, hw.count⟩ : Wheel).stored.filter
        (fun x => decide (x.1 ∈ [pos]) && due ts x.2) = [] := by
      refine filter_eq_nil_iff.mpr (fun x member => ?_)
      simp [stored_erase_ne member]
    rw [none, map_nil, append_nil]
    have same : (fun x : Nat × Nat × Int => decide (x.1 ∈ [pos]) && due ts x.2) ∘
        (fun e => (pos, e)) = due ts := by
      funext e
      simp
    rw [same]
    exact map_id _

end

theorem skip_expired (none : ∀ x ∈ hw.stored, x.1 ∈ positions → due ts x.2 = false) :
    Expired ts callback positions hw hw [] := by
  constructor
  · refine .of_eq (filter_eq_self.mpr (fun x member => ?_)).symm
    by_cases here : x.1 ∈ positions
    · simp [taken, none x member here]
    · simp [here]
  · refine .of_eq ?_
    rw [eq_comm, map_eq_nil_iff, filter_eq_nil_iff]
    intro x member
    by_cases here : x.1 ∈ positions
    · simp [none x member here]
    · simp [here]

/-- What the loop over the slots at these positions guarantees. -/
structure Looped (ts : Int) (callback : Nat → Int → Bool) (positions : List Nat) (hw : Wheel)
    (globalLowest : Int) (out : Wheel × Int × List (Nat × Int)) : Prop where
  sound : out.1.Sound
  expired : Expired ts callback positions hw out.1 out.2.2
  lower : out.2.1 ≤ globalLowest
  lowest : ∀ p ∈ out.1.wheel, p.1 ∈ positions → out.2.1 ≤ p.2.lowest
  others : ∀ p ∈ out.1.wheel, p.1 ∉ positions → p ∈ hw.wheel

theorem Looped.cons {low low' : Int} {here : List (Nat × Int)}
    {out : Wheel × Int × List (Nat × Int)} (new : pos ∉ positions)
    (first : Expired ts callback [pos] hw hw' here) (lower : low' ≤ low)
    (lowest : ∀ p ∈ hw'.wheel, p.1 = pos → low' ≤ p.2.lowest)
    (others : ∀ p ∈ hw'.wheel, p.1 ≠ pos → p ∈ hw.wheel)
    (rest : Looped ts callback positions hw' low' out) :
    Looped ts callback (pos :: positions) hw low (out.1, out.2.1, here ++ out.2.2) := by
  refine ⟨rest.sound, first.trans new rest.expired, rest.lower.trans lower, ?_, ?_⟩
  · intro p member inside
    rcases mem_cons.mp inside with same | later
    · have untouched := rest.others p member (same ▸ new)
      exact rest.lower.trans (lowest p untouched same)
    · exact rest.lowest p member later
  · intro p member outside
    have apart := not_or.mp (mem_cons.not.mp outside)
    exact others p (rest.others p member apart.2) apart.1

theorem expireFrom_swept {low : Int} (found : Table.get hw.wheel pos = some s)
    (open_ : ¬ ts < s.lowest) :
    expireFrom order ts callback (pos :: positions) hw low =
      let w := sweepSlot order ts callback s hw.count
      let out := expireFrom order ts callback positions (hw.put pos w)
        (if w.entries ≠ [] ∧ w.slotLowest < low then w.slotLowest else low)
      (out.1, out.2.1, w.called ++ out.2.2) := by
  rw [expireFrom, found]
  simp only [if_neg open_, put]
  split
  next empty => simp [empty]
  next filled => simp [filled]

theorem get_of_key (keys : (hw.wheel.map Prod.fst).Nodup) {p : Nat × Slot} (member : p ∈ hw.wheel) :
    Table.get hw.wheel p.1 = some p.2 :=
  get_of_mem keys member

theorem stored_slot (sound : hw.Sound) (found : Table.get hw.wheel pos = some s)
    {x : Nat × Nat × Int} (member : x ∈ hw.stored) (here : x.1 = pos) : x.2 ∈ s.entries := by
  obtain ⟨s', there, inside⟩ := position_of_stored member
  have found' := get_of_key sound.keys there
  rw [here] at found'
  rw [Option.some.inj (found.symm.trans found')]
  exact inside

theorem expireFrom_looped (once : positions.Nodup) (sound : hw.Sound) (low : Int) :
    Looped ts callback positions hw low (expireFrom order ts callback positions hw low) := by
  induction positions generalizing hw low with
  | nil => exact ⟨sound, skip_expired (by simp), le_rfl, by simp, fun p member _ => member⟩
  | cons pos positions ih =>
    obtain ⟨new, once⟩ := nodup_cons.mp once
    cases found : Table.get hw.wheel pos with
    | none =>
      have absent : ∀ p ∈ hw.wheel, p.1 ≠ pos := by
        intro p member same
        have there := get_of_key sound.keys member
        rw [same, found] at there
        cases there
      have nothing : Expired ts callback [pos] hw hw [] := by
        refine skip_expired (fun x member here => ?_)
        obtain ⟨s, there, _⟩ := position_of_stored member
        exact absurd (mem_singleton.mp here) (absent _ there)
      have step := (ih once sound low).cons new nothing le_rfl
        (fun p member same => absurd same (absent p member)) (fun p member _ => member)
      rw [expireFrom, found]
      exact step
    | some s =>
      obtain ⟨_, wf⟩ := sound.slot found
      have only : ∀ p ∈ hw.wheel, p.1 = pos → p.2 = s := by
        intro p member same
        have there := get_of_key sound.keys member
        rw [same, found] at there
        exact (Option.some.inj there).symm
      by_cases closed : ts < s.lowest
      · have nothing : Expired ts callback [pos] hw hw [] := by
          refine skip_expired (fun x member here => ?_)
          have inside := stored_slot sound found member (mem_singleton.mp here)
          have above := wf.lowest x.2 inside
          simp only [due, decide_eq_false_iff_not]
          omega
        have rest := ih once sound (if s.lowest < low then s.lowest else low)
        rw [expireFrom, found]
        simp only [if_pos closed]
        refine rest.cons new nothing ?_ ?_ (fun p member _ => member)
        · split <;> omega
        · intro p member same
          rw [only p member same]
          split <;> omega
      · rw [expireFrom_swept found closed]
        refine (ih once (sweepSlot_sound sound found) _).cons new (put_expired sound found) ?_ ?_ ?_
        · split <;> omega
        · intro p member same
          rcases mem_put member with ⟨rfl, filled⟩ | ⟨_, other⟩
          · simp only [filled, ne_eq, not_false_eq_true, true_and]
            split <;> omega
          · exact absurd same other
        · intro p member other
          rcases mem_put member with ⟨rfl, _⟩ | ⟨old, _⟩
          · exact absurd rfl other
          · exact old

structure Inv (hw : Wheel) : Prop extends hw.Sound where
  lowest : ∀ p ∈ hw.wheel, hw.lowest ≤ p.2.lowest
  top : hw.lowest ≤ maxInt64

theorem Inv.lowest_le {hw : Wheel} (inv : hw.Inv) {x : Nat × Nat × Int} (member : x ∈ hw.stored) :
    hw.lowest ≤ x.2.2 := by
  obtain ⟨s, there, inside⟩ := position_of_stored member
  exact (inv.lowest _ there).trans ((inv.slots _ there).2.lowest _ inside)

theorem expired_whole {after : Wheel} {called : List (Nat × Int)}
    (covers : ∀ pos, pos < wheelSize → pos ∈ positions) (sound : hw.Sound)
    (expired : Expired ts callback positions hw after called) :
    called.Perm ((hw.stored.map Prod.snd).filter (due ts)) ∧
      after.stored.Perm (hw.stored.filter (fun x => !taken ts callback x.2)) := by
  have inside : ∀ x ∈ hw.stored, x.1 ∈ positions := by
    intro x member
    obtain ⟨s, there, _⟩ := position_of_stored member
    exact covers _ (sound.slots _ there).1
  constructor
  · refine expired.called.trans (.of_eq ?_)
    rw [filter_map]
    congr 1
    refine filter_congr (fun x member => ?_)
    simp [inside x member]
  · refine expired.left.trans (.of_eq (filter_congr (fun x member => ?_)))
    simp [inside x member]

theorem expireTasks_exact (inv : hw.Inv) (order : Order) (ts : Int)
    (callback : Nat → Int → Bool) :
    (hw.expireTasks order ts callback).1.Inv ∧
      (hw.expireTasks order ts callback).2.Perm ((hw.stored.map Prod.snd).filter (due ts)) ∧
      (hw.expireTasks order ts callback).1.stored.Perm
        (hw.stored.filter (fun x => !taken ts callback x.2)) := by
  have covers : ∀ pos, pos < wheelSize → pos ∈ List.range wheelSize := fun pos inside =>
    mem_range.mpr inside
  have once : (List.range wheelSize).Nodup := nodup_range
  rw [expireTasks]
  generalize List.range wheelSize = positions at covers once
  split
  next early =>
    have nothing : Expired ts callback positions hw hw [] := by
      refine skip_expired (fun x member _ => ?_)
      have above := inv.lowest_le member
      simp only [due, decide_eq_false_iff_not]
      omega
    exact ⟨inv, expired_whole covers inv.toSound nothing⟩
  · have looped : Looped ts callback positions hw maxInt64
        (expireFrom order ts callback positions hw maxInt64) :=
      expireFrom_looped once inv.toSound maxInt64
    refine ⟨⟨⟨looped.sound.keys, looped.sound.slots, looped.sound.count⟩, ?_, looped.lower⟩,
      expired_whole covers inv.toSound ⟨looped.expired.left, looped.expired.called⟩⟩
    intro p member
    exact looped.lowest p member (covers _ (looped.sound.slots p member).1)

/-! The other operations. -/

theorem getPosition_lt (expires : Int) : getPosition expires < wheelSize := by
  have low := Int.emod_nonneg (expires.tdiv tickDuration) (show (wheelSize : Int) ≠ 0 by decide)
  have high := Int.emod_lt_of_pos (expires.tdiv tickDuration) (show (0 : Int) < wheelSize by decide)
  rw [getPosition]
  omega

theorem put_inv (inv : hw.Inv) (found : Table.get hw.wheel pos = some s)
    (keys : (w.entries.map Prod.fst).Nodup) (lowest : ∀ e ∈ w.entries, w.slotLowest ≤ e.2)
    (count : w.count + s.entries.length = hw.count + w.entries.length)
    (above : s.lowest ≤ w.slotLowest) : (hw.put pos w).Inv := by
  have same : (hw.put pos w).lowest = hw.lowest := by
    rw [put]
    split <;> rfl
  refine ⟨put_sound inv.toSound found keys lowest count, ?_, same ▸ inv.top⟩
  intro p member
  rw [same]
  rcases mem_put member with ⟨rfl, _⟩ | ⟨old, _⟩
  · exact (inv.lowest _ (mem_of_get found)).trans above
  · exact inv.lowest p old

theorem remove_eq {seq : Nat} {expires : Int} (removed : hw.remove seq expires = some hw') :
    ∃ s e, Table.get hw.wheel (getPosition expires) = some s ∧ Table.get s.entries seq = some e ∧
      hw' = hw.put (getPosition expires) ⟨Table.erase s.entries seq, hw.count - 1, s.lowest, []⟩ := by
  rw [remove] at removed
  cases found : Table.get hw.wheel (getPosition expires) with
  | none => simp [found] at removed
  | some s =>
    cases there : Table.get s.entries seq with
    | none => simp [found, there] at removed
    | some e =>
      refine ⟨s, e, rfl, there, ?_⟩
      simp only [found, Option.bind_some, there, Option.some.injEq, HashWheel.remove] at removed
      rw [← removed, put]
      split <;> rfl

theorem remove_inv (inv : hw.Inv) {seq : Nat} {expires : Int}
    (removed : hw.remove seq expires = some hw') : hw'.Inv := by
  obtain ⟨s, e, found, there, rfl⟩ := remove_eq removed
  have wf := (inv.toSound.slot found).2
  have size := length_erase wf.keys there
  have room := inv.toSound.entries_le found
  refine put_inv inv found (keys_erase wf.keys seq) ?_ ?_ le_rfl
  · intro e inside
    exact wf.lowest e (mem_filter.mp inside).1
  · simp only
    omega

/-- Both lowest times after an `Add`, whichever of its branches is taken. -/
theorem add_eq (hw : Wheel) (seq : Nat) (expires : Int) :
    ∃ low low', low ≤ expires ∧ low ≤ ((Table.get hw.wheel (getPosition expires)).getD newSlot).lowest ∧
      low' ≤ hw.lowest ∧ (hw.lowest ≤
        ((Table.get hw.wheel (getPosition expires)).getD newSlot).lowest → low' ≤ low) ∧
      (hw.add seq expires).toHashWheel = ⟨Table.set hw.wheel (getPosition expires)
        ⟨Table.set ((Table.get hw.wheel (getPosition expires)).getD newSlot).entries seq expires,
          low⟩, low'⟩ := by
  generalize slot : (Table.get hw.wheel (getPosition expires)).getD newSlot = s
  by_cases earlier : expires < s.lowest
  · refine ⟨expires, if expires < hw.lowest then expires else hw.lowest, le_rfl, earlier.le,
      ?_, ?_, ?_⟩
    · split <;> omega
    · intro _
      split <;> omega
    · simp only [add, HashWheel.add, slot, if_pos earlier]
  · refine ⟨s.lowest, hw.lowest, by omega, le_rfl, le_rfl, fun below => below, ?_⟩
    simp only [add, HashWheel.add, slot, if_neg earlier]

structure Target (hw : Wheel) (pos : Nat) (s : Slot) : Prop where
  keys : (s.entries.map Prod.fst).Nodup
  lowest : ∀ e ∈ s.entries, s.lowest ≤ e.2
  above : hw.lowest ≤ s.lowest
  size : s.entries.length +
    (⟨⟨Table.erase hw.wheel pos, hw.lowest⟩, hw.count⟩ : Wheel).stored.length = hw.count

theorem target_slot (inv : hw.Inv) (pos : Nat) :
    Target hw pos ((Table.get hw.wheel pos).getD newSlot) := by
  cases found : Table.get hw.wheel pos with
  | none =>
    refine ⟨nodup_nil, by simp [newSlot], inv.top, ?_⟩
    simp only [Option.getD_none, newSlot, length_nil, erase_of_none found, inv.count]
    exact Nat.zero_add _
  | some s =>
    have wf := (inv.toSound.slot found).2
    have size := (stored_split inv.keys found hw.lowest hw.count).length_eq
    rw [length_append, length_map] at size
    refine ⟨wf.keys, wf.lowest, inv.lowest _ (mem_of_get found), ?_⟩
    rw [inv.count]
    exact size.symm

theorem length_set {t : List (Nat × Int)} (keys : (t.map Prod.fst).Nodup) (seq : Nat) (e : Int) :
    (Table.set t seq e).length = if (Table.get t seq).isSome then t.length else t.length + 1 := by
  rw [Table.set, length_cons]
  cases found : Table.get t seq with
  | none => rw [erase_of_none found]; rfl
  | some old => exact length_erase keys found

theorem add_inv (inv : hw.Inv) (seq : Nat) (expires : Int) : (hw.add seq expires).Inv := by
  obtain ⟨low, low', lowE, lowS, lowW, both, same⟩ := add_eq hw seq expires
  have target := target_slot inv (getPosition expires)
  have size := length_set target.keys seq expires
  have count : (hw.add seq expires).count =
      if (Table.get ((Table.get hw.wheel (getPosition expires)).getD newSlot).entries seq).isSome
      then hw.count else hw.count + 1 := rfl
  generalize (Table.get hw.wheel (getPosition expires)).getD newSlot = s at *
  generalize hw.add seq expires = hw' at *
  obtain ⟨wheel', count'⟩ := hw'
  obtain rfl : wheel' = _ := same
  simp only at count
  subst count
  have slotLowest : ∀ e ∈ Table.set s.entries seq expires, low ≤ e.2 := by
    refine forall_mem_cons.mpr ⟨lowE, fun e old => ?_⟩
    exact lowS.trans (target.lowest e (mem_filter.mp old).1)
  refine ⟨⟨keys_set inv.keys _ _, ?_, ?_⟩, ?_, lowW.trans inv.top⟩
  · refine forall_mem_cons.mpr ⟨?_, fun p old => inv.slots p (mem_filter.mp old).1⟩
    exact ⟨getPosition_lt expires, keys_set target.keys _ _, by simp [Table.set], slotLowest⟩
  · have counted := target.size
    rw [stored_set, length_append, length_map, size]
    by_cases old : (Table.get s.entries seq).isSome = true
    · simp only [if_pos old]
      exact counted.symm
    · simp only [if_neg old]
      rw [← counted, Nat.add_right_comm]
      rfl
  · refine forall_mem_cons.mpr ⟨both target.above, fun p old => ?_⟩
    exact lowW.trans (inv.lowest p (mem_filter.mp old).1)

inductive Op where
  | add (seq : Nat) (expires : Int)
  | remove (seq : Nat) (expires : Int)
  | update (seq : Nat) (oldExpires newExpires : Int)
  | expireTasks (order : Order) (ts : Int) (callback : Nat → Int → Bool)

/-- A task that is not found leaves the wheel as it is. -/
def step (hw : Wheel) : Op → Wheel
  | .add seq expires => hw.add seq expires
  | .remove seq expires => (hw.remove seq expires).getD hw
  | .update seq oldExpires newExpires => (hw.update seq oldExpires newExpires).getD hw
  | .expireTasks order ts callback => (hw.expireTasks order ts callback).1

theorem new_inv : new.Inv :=
  ⟨⟨nodup_nil, by simp [new, newHashWheel], rfl⟩, by simp [new, newHashWheel], le_rfl⟩

theorem step_inv (hw : Wheel) (op : Op) (inv : hw.Inv) : (hw.step op).Inv := by
  cases op with
  | add seq expires => exact add_inv inv seq expires
  | remove seq expires =>
    cases removed : hw.remove seq expires with
    | none => simpa [step, removed] using inv
    | some hw' => simpa [step, removed] using remove_inv inv removed
  | update seq oldExpires newExpires =>
    cases removed : hw.remove seq oldExpires with
    | none => simpa [step, update, removed] using inv
    | some hw' => simpa [step, update, removed] using add_inv (remove_inv inv removed) seq newExpires
  | expireTasks order ts callback => exact (expireTasks_exact inv order ts callback).1

/-- In every state that operations reach, the lowest times are lower bounds, the count is the
number of entries, no expiration is announced too late, and `expireTasks` calls the callback once
on each entry that is due, on no other, and takes exactly those away for which it returned true. -/
theorem never_misses (ops : List Op) :
    (∀ x ∈ (run step new ops).stored, (run step new ops).lowest ≤ x.2.2) ∧
    (∀ p ∈ (run step new ops).wheel, ∀ e ∈ p.2.entries, p.2.lowest ≤ e.2) ∧
    (run step new ops).count = (run step new ops).stored.length ∧
    (∀ before, ∀ x ∈ (run step new ops).stored, x.2.2 < before →
      (run step new ops).getNextExpiration before ≤ x.2.2) ∧
    (∀ order ts callback,
      ((run step new ops).expireTasks order ts callback).2.Perm
        (((run step new ops).stored.map Prod.snd).filter (fun e => decide (e.2 ≤ ts))) ∧
      ((run step new ops).expireTasks order ts callback).1.stored.Perm
        ((run step new ops).stored.filter
          (fun x => !(decide (x.2.2 ≤ ts) && callback x.2.1 x.2.2)))) := by
  have inv : (run step new ops).Inv := run_invariant step Inv step_inv new_inv ops
  generalize run step new ops = hw at inv
  refine ⟨fun x => inv.lowest_le, fun p member => (inv.slots p member).2.lowest, inv.count, ?_, ?_⟩
  · intro before x member earlier
    have below := inv.lowest_le member
    rw [getNextExpiration, if_pos (below.trans_lt earlier)]
    exact below
  · intro order ts callback
    exact (expireTasks_exact inv order ts callback).2

end Wheel

end LinearNats.Thw
