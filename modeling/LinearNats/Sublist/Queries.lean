import LinearNats.Sublist.Stored

/-! The queries of the generic sublist along a run of inserts and removes. -/
namespace LinearNats.Gsl
open Sublists Server List

variable {T : Type} [DecidableEq T]

theorem Holds.owned {n : Node (Subs T)} {stored : List (Bytes × T)} (holds : Holds n stored) :
    Owned [] n := by
  refine ⟨holds.pruned, holds.tidy, holds.ok, ?_⟩
  intro q v f nonempty there
  obtain ⟨inside, rfl⟩ := (holds.entry_iff q v f).mp there
  refine ⟨rfl, ?_⟩
  rintro rfl
  exact (holds.valid _ inside).1 (by simp [tokens])

theorem keys_fwcs : keys fwcs = [.fwc] := by decide

namespace GenericSublist
variable {s : GenericSublist T} {stored : List (Bytes × T)} {subject : Bytes}

omit [DecidableEq T] in
theorem matchCallbacks_eq (order : Table.Order (T × Bytes)) (s : GenericSublist T)
    (full : [] ∉ tokens subject) :
    s.matchCallbacks order subject =
      (matchedPairs order s.rootNode (tokens subject)).map Prod.snd := by
  rw [matchCallbacks, matchTokens_eq full, Option.elim_some]
  have visited := matchLevel_eq (callbacksForResults order) (tokens_ne_nil subject) s.rootNode none
    none []
  have fold (datas : List (Subs T)) (calls : List T) :
      datas.foldl (callbacksForResults order) calls =
        calls ++ datas.flatMap (fun subs => (order.visit subs).map Prod.fst) := by
    induction datas generalizing calls with
    | nil => simp
    | cons subs rest ih => simp [ih, callbacksForResults]
  rw [fold, nil_append] at visited
  rw [matchedPairs, map_flatMap]
  refine visited.trans ?_
  rw [flatMap_map]
  simp only [map_map, Function.comp_def, Prod.snd_swap]

omit [DecidableEq T] in
theorem counts_none (np : Nat) (subs : Subs T) (none_ : subs.isEmpty = true) :
    np + subs.length = np := by
  rw [isEmpty_iff.mp none_, length_nil, add_zero]

section

variable (holds : Holds s.rootNode stored)

include holds

theorem hasInterest_iff (full : [] ∉ tokens subject) :
    s.hasInterest subject = true ↔
      ∃ filter value, (filter, value) ∈ stored ∧ FilterMatches filter subject := by
  rw [hasInterest, hasInterestNum, matchTokens_eq full, Option.elim_some]
  refine (matchLevelForAny_iff counts_none (tokens_ne_nil subject) s.rootNode 0).trans ?_
  refine (holds.interest_iff holds.home_valid (tokens subject)).trans ?_
  simp only [Prod.exists]
  rfl

theorem hasInterest_iff_matched (order : Table.Order (T × Bytes)) (full : [] ∉ tokens subject) :
    s.hasInterest subject = true ↔ s.matchCallbacks order subject ≠ [] := by
  rw [hasInterest_iff holds full, matchCallbacks_eq order s full, ne_eq, map_eq_nil_iff]
  constructor
  · rintro ⟨filter, value, inside, covers⟩ none_
    have member := (holds.mem_matchedPairs order (tokens subject) filter value).mpr ⟨inside, covers⟩
    rw [none_] at member
    cases member
  · intro called
    obtain ⟨⟨filter, value⟩, member⟩ := exists_mem_of_ne_nil _ called
    exact ⟨filter, value, (holds.mem_matchedPairs order (tokens subject) filter value).mp member⟩

theorem matchesFullWildcard_iff :
    s.matchesFullWildcard = true ↔ ∃ value, (fwcs, value) ∈ stored := by
  have there : s.matchesFullWildcard = true ↔ ∃ d, s.rootNode.dataAt [.fwc] = some d := by
    rw [matchesFullWildcard, ← Node.find_isSome, Option.isSome_iff_exists]
    simp only [Node.find, rootNode, Node.child_mk, Level.child]
    cases s.root.fwc <;> simp
  rw [there]
  constructor
  · rintro ⟨subs, here⟩
    obtain ⟨⟨filter, value⟩, inside, path⟩ := holds.of_fwc holds.home_valid rfl here
    have same : filter = fwcs := keys_injective (path.symm.trans keys_fwcs.symm)
    exact ⟨value, same ▸ inside⟩
  · rintro ⟨value, inside⟩
    obtain ⟨subs, here, -⟩ := holds.dataAt_of_mem inside
    exact ⟨subs, keys_fwcs ▸ here⟩

theorem matchesSingleFilter_iff (order : Table.Order (T × Bytes)) (f : Bytes) :
    s.matchesSingleFilter order = (f, true) ↔
      (∃ value, (f, value) ∈ stored) ∧ ∀ p ∈ stored, p.1 = f := by
  rw [matchesSingleFilter, singleFilter_iff order f s.root [] s.rootNode rfl holds.owned, OnlyFilter]
  simp only [holds.entry_iff]
  constructor
  · rintro ⟨⟨q, v, -, inside, -⟩, every⟩
    exact ⟨⟨v, inside⟩, fun p member => every (keys p.1) p.2 p.1 (keys_ne_nil p.1) ⟨member, rfl⟩⟩
  · rintro ⟨⟨v, inside⟩, every⟩
    exact ⟨⟨keys f, v, keys_ne_nil f, inside, rfl⟩, fun q v f' _ stored => every _ stored.1⟩

theorem remove_ok_iff (filter : Bytes) (value : T) :
    (s.remove filter value).2 = none ↔ (filter, value) ∈ stored := by
  by_cases inside : (filter, value) ∈ stored
  · exact iff_of_true (remove_stored holds inside).2.2 inside
  · obtain ⟨e, failed⟩ := remove_missing holds inside
    exact iff_of_false (by simp [failed]) inside

end

end GenericSublist

structure Filter where
  subject : Bytes
  valid : ValidTokens (tokens subject)

inductive Op (T : Type) where
  | insert (filter : Filter) (value : T)
  | remove (subject : Bytes) (value : T)

/-- The sublist and the pairs that the calls so far have stored. -/
structure State (T : Type) where
  sublist : GenericSublist T
  stored : List (Bytes × T)

def State.empty : State T := ⟨.newSublist, []⟩

def step (s : State T) : Op T → State T
  | .insert filter value =>
    ⟨(s.sublist.insert filter.subject value).1, Holding.add s.stored (filter.subject, value)⟩
  | .remove subject value =>
    ⟨(s.sublist.remove subject value).1, s.stored.erase (subject, value)⟩

/-- Every query answers for the stored pairs. -/
structure Agrees (s : State T) : Prop where
  matched : ∀ order subject, [] ∉ tokens subject → ∃ pairs : List (Bytes × T), pairs.Nodup ∧
    (∀ filter value, (filter, value) ∈ pairs ↔
      (filter, value) ∈ s.stored ∧ FilterMatches filter subject) ∧
    s.sublist.matchCallbacks order subject = pairs.map Prod.snd
  interest : ∀ order subject, [] ∉ tokens subject →
    (s.sublist.hasInterest subject = true ↔ s.sublist.matchCallbacks order subject ≠ [])
  full : s.sublist.matchesFullWildcard = true ↔ ∃ value, (fwcs, value) ∈ s.stored
  single : ∀ order f, s.sublist.matchesSingleFilter order = (f, true) ↔
    (∃ value, (f, value) ∈ s.stored) ∧ ∀ p ∈ s.stored, p.1 = f
  removes : ∀ subject value, (s.sublist.remove subject value).2 = none ↔ (subject, value) ∈ s.stored
  counted : s.sublist.count = s.stored.length

/-- An insert is of a pair that is not stored, and the count has room for it. -/
def Counts (s : State T) : Op T → Prop
  | .insert filter value =>
    (filter.subject, value) ∉ s.stored ∧ s.stored.length + 1 < 2 ^ 32
  | .remove _ _ => True

structure Inv (s : State T) : Prop where
  holds : Holds s.sublist.rootNode s.stored
  counted : s.sublist.count = s.stored.length
  room : s.stored.length < 2 ^ 32

variable {s : State T}

theorem Holds.step (holds : Holds s.sublist.rootNode s.stored) (op : Op T) :
    Holds (step s op).sublist.rootNode (step s op).stored := by
  cases op with
  | insert filter value =>
    have made := (s.sublist.insert_valid filter.valid value).1
    exact made ▸ holds.extend filter.valid value
  | remove subject value =>
    by_cases inside : (subject, value) ∈ s.stored
    · exact (GenericSublist.remove_stored holds inside).1
    · obtain ⟨e, failed⟩ := GenericSublist.remove_missing holds inside
      simp only [Gsl.step, failed, erase_of_not_mem inside]
      exact holds

theorem run_holds (ops : List (Op T)) :
    Holds (run step State.empty ops).sublist.rootNode (run step State.empty ops).stored := by
  have initial : Holds (State.empty : State T).sublist.rootNode State.empty.stored := Holds.empty
  exact run_invariant Gsl.step (fun s => Holds s.sublist.rootNode s.stored)
    (fun _ op holds => holds.step op) initial ops

theorem Inv.agrees (inv : Inv s) : Agrees s where
  matched := fun order subject full =>
    ⟨matchedPairs order s.sublist.rootNode (tokens subject), inv.holds.nodup_matchedPairs order _,
      inv.holds.mem_matchedPairs order _, s.sublist.matchCallbacks_eq order full⟩
  interest := fun order _ full => GenericSublist.hasInterest_iff_matched inv.holds order full
  full := GenericSublist.matchesFullWildcard_iff inv.holds
  single := GenericSublist.matchesSingleFilter_iff inv.holds
  removes := GenericSublist.remove_ok_iff inv.holds
  counted := inv.counted

theorem Inv.step (inv : Inv s) {op : Op T} (counts : Counts s op) : Inv (Gsl.step s op) := by
  have holds := inv.holds.step op
  have counted := inv.counted
  have room := inv.room
  cases op with
  | insert filter value =>
    obtain ⟨fresh, space⟩ := counts
    have length : (Gsl.step s (.insert filter value)).stored.length = s.stored.length + 1 := by
      simp [Gsl.step, Holding.add, fresh]
    refine ⟨holds, ?_, by omega⟩
    rw [length]
    simp only [Gsl.step, (s.sublist.insert_valid filter.valid value).2.1]
    omega
  | remove subject value =>
    by_cases inside : (subject, value) ∈ s.stored
    · have length := length_erase_of_mem inside
      have positive := length_pos_of_mem inside
      refine ⟨holds, ?_, ?_⟩
      · simp only [Gsl.step, (GenericSublist.remove_stored inv.holds inside).2.1, length]
        omega
      · simp only [Gsl.step, length]
        omega
    · obtain ⟨e, failed⟩ := GenericSublist.remove_missing inv.holds inside
      refine ⟨holds, ?_, ?_⟩
      · simp only [Gsl.step, failed, erase_of_not_mem inside, counted]
      · simpa only [Gsl.step, erase_of_not_mem inside] using room

/-- An insert that does not count as one stored pair leaves a wrong count. -/
theorem Inv.breaks (inv : Inv s) {op : Op T} (wrong : ¬ Counts s op) :
    ¬ Agrees (Gsl.step s op) := by
  intro agrees
  have counted := agrees.counted
  cases op with
  | remove subject value => exact wrong trivial
  | insert filter value =>
    simp only [Gsl.step, (s.sublist.insert_valid filter.valid value).2.1, inv.counted] at counted
    have room := inv.room
    unfold Holding.add at counted
    split at counted
    · omega
    next stored =>
      rw [length_cons] at counted
      apply wrong
      exact ⟨stored, by omega⟩

theorem Inv.empty : Inv (State.empty : State T) := ⟨Holds.empty, rfl, Nat.two_pow_pos 32⟩

theorem queries_agree_iff (ops : List (Op T)) :
    (∀ n, Agrees (run step State.empty (ops.take n))) ↔ Along step Counts State.empty ops :=
  always_iff_along step Counts Inv Agrees (fun _ => Inv.agrees) (fun _ _ inv => inv.step)
    (fun _ _ inv => inv.breaks) Inv.empty ops

/-- The pair is stored once and counted twice. -/
theorem insert_again_counts :
    (run step (State.empty : State Nat)
      [.insert ⟨[97], by decide⟩ 1, .insert ⟨[97], by decide⟩ 1]).sublist.count = 2 ∧
    (run step (State.empty : State Nat)
      [.insert ⟨[97], by decide⟩ 1, .insert ⟨[97], by decide⟩ 1]).stored = [([97], 1)] := by
  decide +kernel

end LinearNats.Gsl
