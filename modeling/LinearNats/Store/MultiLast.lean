import LinearNats.Store.LoadNext

/-! The last sequences of the subjects that some filters match: of all subjects at once when the
filters look like the subjects of the stream, and otherwise subject by subject. The subjects of the
stream may have changed since the messages were stored. -/
namespace LinearNats.Store
open Server Scan Sublists List MemStore

def addIfNotDupe (seqs : List Nat) (seq : Nat) : List Nat :=
  if seq ∈ seqs then seqs else seqs ++ [seq]

/-- Whether the filters look like the subjects of the stream, both sorted. -/
def filterIsAll (subjects filters : List Bytes) : Bool :=
  if filters.length ≠ subjects.length then false
  else
    ((subjects.insertionSort (· ≤ ·)).zip (filters.insertionSort (· ≤ ·))).all
      (fun (configured, subj) => subjectIsSubsetMatch configured subj)

namespace MemStore

def lastTotals (ms : MemStore) (subj : Bytes) (ss : SimpleState) : MemStore × SimpleState :=
  if ss.lastNeedsUpdate then ms.refresh subj ss else (ms, ss)

def visitLast (seqOf : MemStore → Bytes → SimpleState → Option Nat) :
    List Bytes → MemStore → MemStore × List Nat
  | [], ms => (ms, [])
  | subj :: rest, ms =>
    match Table.get ms.fss subj with
    | none => visitLast seqOf rest ms
    | some ss =>
      let (ms, ss) := ms.lastTotals subj ss
      let (next, seqs) := visitLast seqOf rest ms
      (next, (seqOf ms subj ss).toList ++ seqs)

/-- `iter` are the subjects of the tree, in the order in which they are iterated. -/
def allLastSeqsLocked (ms : MemStore) (iter : List Bytes) : MemStore × List Nat :=
  if ms.msgs.length = 0 then (ms, [])
  else
    let (ms, seqs) := visitLast (fun _ _ ss => some ss.last) iter ms
    (ms, seqs.insertionSort (· ≤ ·))

/-- The last message of a subject up to `maxSeq`; one message after it is not looked for. -/
def lastSeqOf (maxSeq : Nat) (ms : MemStore) (subj : Bytes) (ss : SimpleState) : Option Nat :=
  if ss.last ≤ maxSeq then some ss.last
  else if 1 < ss.msgs then lastIn (has ms.msgs subj) 1 maxSeq
  else none

def collectLast (maxSeq : Nat) (maxAllowed : Int) (tree : FssTree) :
    List Bytes → MemStore → List Nat → MemStore × Option (List Nat)
  | [], ms, seqs => (ms, some (seqs.insertionSort (· ≤ ·)))
  | filter :: rest, ms, seqs =>
    let (ms, added) := visitLast (lastSeqOf maxSeq) ((tree.matched filter).map Prod.fst) ms
    let seqs := added.foldl addIfNotDupe seqs
    if 0 < maxAllowed ∧ maxAllowed < seqs.length then (ms, none)
    else collectLast maxSeq maxAllowed tree rest ms seqs

/-- `none` is the error on too many results. -/
def multiLastSeqs (ms : MemStore) (tree : FssTree)
    (subjects iter filters : List Bytes) (maxSeq : Nat) (maxAllowed : Int) :
    MemStore × Option (List Nat) :=
  if ms.msgs.length = 0 then (ms, some [])
  else if maxSeq = 0 ∧ maxAllowed ≤ 0 ∧ filterIsAll subjects filters = true then
    let (ms, seqs) := ms.allLastSeqsLocked iter
    (ms, some seqs)
  else collectLast (if maxSeq = 0 then ms.lastSeq else maxSeq) maxAllowed tree filters ms []

end MemStore

def lastUpTo (msgs : List StoreMsg) (top : Nat) (subj : Bytes) : Option Nat :=
  lastIn (has msgs subj) 0 top

def seqsUpTo (msgs : List StoreMsg) (subj : Bytes) (top : Nat) : Set Nat :=
  {n | n ∈ seqsOf msgs subj ∧ n ≤ top}

section Sorting

theorem mem_addIfNotDupe {seqs : List Nat} {seq n : Nat} :
    n ∈ addIfNotDupe seqs seq ↔ n ∈ seqs ∨ n = seq := by
  rw [addIfNotDupe]
  split
  next there =>
    constructor
    · exact .inl
    · rintro (inside | rfl)
      · exact inside
      · exact there
  · rw [mem_append, mem_singleton]

theorem nodup_addIfNotDupe {seqs : List Nat} (nodup : seqs.Nodup) (seq : Nat) :
    (addIfNotDupe seqs seq).Nodup := by
  rw [addIfNotDupe]
  split
  · exact nodup
  next new => exact nodup.append (nodup_singleton seq) (disjoint_singleton.mpr new)

theorem foldl_addIfNotDupe (added : List Nat) {seqs : List Nat} (nodup : seqs.Nodup) :
    (added.foldl addIfNotDupe seqs).Nodup ∧
      ∀ n, n ∈ added.foldl addIfNotDupe seqs ↔ n ∈ seqs ∨ n ∈ added := by
  induction added generalizing seqs with
  | nil => exact ⟨nodup, fun n => by simp⟩
  | cons seq rest ih =>
    obtain ⟨nodup', members⟩ := ih (nodup_addIfNotDupe nodup seq)
    refine ⟨nodup', fun n => ?_⟩
    rw [foldl_cons, members, mem_addIfNotDupe, mem_cons, or_assoc]

theorem insertionSort_increasing {seqs : List Nat} (nodup : seqs.Nodup) :
    (seqs.insertionSort (· ≤ ·)).Pairwise (· < ·) ∧
      ∀ n, n ∈ seqs.insertionSort (· ≤ ·) ↔ n ∈ seqs := by
  have perm := perm_insertionSort (· ≤ ·) seqs
  refine ⟨?_, fun n => perm.mem_iff⟩
  have sorted := pairwise_insertionSort (· ≤ ·) seqs
  have distinct := perm.nodup_iff.mpr nodup
  exact (sorted.and distinct).imp (fun both => lt_of_le_of_ne both.1 both.2)

end Sorting

section Visit

variable {ms : MemStore} {subj : Bytes} {ss : SimpleState} {top : Nat}

structure LastKnown (msgs : List StoreMsg) (subj : Bytes) (ss : SimpleState) : Prop where
  count : ss.msgs = (seqsOf msgs subj).card
  last : IsGreatest (seqsOf msgs subj : Set Nat) ss.last

theorem lastTotals_spec (h : Consistent ms) (entry : Table.get ms.fss subj = some ss) :
    Consistent (ms.lastTotals subj ss).1 ∧
      (∃ fss, (ms.lastTotals subj ss).1 = { ms with fss := fss }) ∧
      LastKnown ms.msgs subj (ms.lastTotals subj ss).2 := by
  rw [lastTotals]
  split
  · obtain ⟨consistent, _, exact_⟩ := h.refresh entry
    exact ⟨consistent, refresh_fss ms subj ss, exact_.count, exact_.last⟩
  next fresh =>
    have totals := (h.index.entry subj ss entry).2
    exact ⟨h, ⟨ms.fss, rfl⟩, totals.count, totals.last (Bool.eq_false_iff.mpr fresh)⟩

theorem lastUpTo_iff (h : Consistent ms) {n : Nat} :
    lastUpTo ms.msgs top subj = some n ↔ IsGreatest (seqsUpTo ms.msgs subj top) n := by
  constructor
  · intro found
    obtain ⟨_, high, there, greatest⟩ := lastIn_some found
    refine ⟨⟨h.sorted.has_iff.mp there, high⟩, ?_⟩
    rintro m ⟨inside, below⟩
    exact greatest m (Nat.zero_le m) below (h.sorted.has_iff.mpr inside)
  · rintro ⟨⟨inside, below⟩, greatest⟩
    cases found : lastUpTo ms.msgs top subj with
    | none =>
      have absent := lastIn_none.mp found n (Nat.zero_le n) below
      rw [h.sorted.has_iff.mpr inside] at absent
      cases absent
    | some m =>
      obtain ⟨_, high, there, greatest'⟩ := lastIn_some found
      have above := greatest' n (Nat.zero_le n) below (h.sorted.has_iff.mpr inside)
      have below := greatest ⟨h.sorted.has_iff.mp there, high⟩
      rw [le_antisymm below above]

theorem lastUpTo_none (h : Consistent ms) (early : ∀ n ∈ seqsOf ms.msgs subj, top < n) :
    lastUpTo ms.msgs top subj = none := by
  rw [lastUpTo, lastIn_none]
  intro m _ below
  rw [Bool.eq_false_iff]
  intro there
  have := early m (h.sorted.has_iff.mp there)
  omega

theorem exists_last {sm : StoreMsg} (inside : sm ∈ ms.msgs) (below : sm.seq ≤ top) :
    ∃ n, IsGreatest (seqsUpTo ms.msgs sm.subj top) n := by
  obtain ⟨n, greatest⟩ := Totals.exists_greatest (S := (seqsOf ms.msgs sm.subj).filter (· ≤ top))
    ⟨sm.seq, Finset.mem_filter.mpr ⟨mem_seqsOf.mpr ⟨sm, inside, rfl, rfl⟩, below⟩⟩
  refine ⟨n, by simpa [seqsUpTo] using greatest.1, fun m there => greatest.2 ?_⟩
  simpa [seqsUpTo] using there

theorem lastSeqOf_eq (h : Consistent ms) (known : LastKnown ms.msgs subj ss) :
    lastSeqOf top ms subj ss = lastUpTo ms.msgs top subj := by
  rw [lastSeqOf]
  split
  next below =>
    refine ((lastUpTo_iff h).mpr ⟨⟨known.last.1, below⟩, ?_⟩).symm
    rintro m ⟨inside, _⟩
    exact known.last.2 inside
  rename_i above
  split
  · -- No message has sequence 0.
    cases found : lastIn (has ms.msgs subj) 1 top with
    | none =>
      refine (lastUpTo_none h (fun n inside => ?_)).symm
      by_contra below
      obtain ⟨sm, there, _, rfl⟩ := mem_seqsOf.mp inside
      have absent := lastIn_none.mp found sm.seq (h.positive sm there) (le_of_not_gt below)
      rw [h.sorted.has_iff.mpr inside] at absent
      cases absent
    | some n =>
      obtain ⟨_, high, there, greatest⟩ := lastIn_some found
      refine ((lastUpTo_iff h).mpr ⟨⟨h.sorted.has_iff.mp there, high⟩, ?_⟩).symm
      rintro m ⟨inside, below⟩
      obtain ⟨sm, there', _, rfl⟩ := mem_seqsOf.mp inside
      exact greatest _ (h.positive sm there') below (h.sorted.has_iff.mpr inside)
  next one =>
    -- The only message is the last one.
    refine (lastUpTo_none h (fun n inside => ?_)).symm
    have few : (seqsOf ms.msgs subj).card ≤ 1 := by
      have := known.count
      omega
    have same := Finset.card_le_one.mp few n inside ss.last known.last.1
    omega

theorem visitLast_spec {seqOf : MemStore → Bytes → SimpleState → Option Nat} (order : List Bytes)
    (h : Consistent ms) (tracked : ∀ sm ∈ ms.msgs, sm.subj ∈ order → Tracked sm.subj)
    (gives : ∀ (other : MemStore) subj ss, Consistent other → other.msgs = ms.msgs →
      other.lastSeq = ms.lastSeq → LastKnown ms.msgs subj ss →
      seqOf other subj ss = lastUpTo ms.msgs top subj) :
    Consistent (visitLast seqOf order ms).1 ∧
      (∃ fss, (visitLast seqOf order ms).1 = { ms with fss := fss }) ∧
      (visitLast seqOf order ms).2 = order.filterMap (lastUpTo ms.msgs top) := by
  induction order generalizing ms with
  | nil => exact ⟨h, ⟨ms.fss, rfl⟩, rfl⟩
  | cons subj rest ih =>
    have later : ∀ sm ∈ ms.msgs, sm.subj ∈ rest → Tracked sm.subj :=
      fun sm inside there => tracked sm inside (mem_cons_of_mem subj there)
    rw [visitLast]
    cases entry : Table.get ms.fss subj with
    | none =>
      have nothing : lastUpTo ms.msgs top subj = none := by
        refine lastUpTo_none h (fun n there => ?_)
        obtain ⟨sm, inside, rfl, _⟩ := mem_seqsOf.mp there
        obtain ⟨ss, found⟩ := h.entry_of_mem inside (tracked sm inside mem_cons_self)
        rw [entry] at found
        cases found
      rw [filterMap_cons_none nothing]
      exact ih h later gives
    | some ss =>
      obtain ⟨consistent, ⟨fss, frame⟩, known⟩ := lastTotals_spec h entry
      dsimp only
      generalize ms.lastTotals subj ss = r at consistent frame known ⊢
      obtain ⟨next, ss⟩ := r
      dsimp only at consistent frame known ⊢
      subst frame
      obtain ⟨consistent', ⟨fss', frame'⟩, seqs⟩ := ih consistent later gives
      refine ⟨consistent', ⟨fss', frame'⟩, ?_⟩
      rw [seqs, gives _ subj ss consistent rfl rfl known, filterMap_cons]
      cases lastUpTo ms.msgs top subj with
      | none => rfl
      | some n => rfl

end Visit

/-- The last sequences up to a bound of the subjects that some filter matches, in order. -/
def LastOfMatching (msgs : List StoreMsg) (filters : List Bytes) (top : Nat) (seqs : List Nat) :
    Prop :=
  seqs.Pairwise (· < ·) ∧
    ∀ n, n ∈ seqs ↔ ∃ subj, (∃ filter ∈ filters, FilterMatches filter subj) ∧
      IsGreatest (seqsUpTo msgs subj top) n

section

variable {ms : MemStore} {tree : FssTree} {filters : List Bytes} {top : Nat}

theorem collectLast_spec (filters : List Bytes) (h : Consistent ms)
    (tracked : ∀ filter subj, tree.visits filter subj = true → Tracked subj) {maxAllowed : Int}
    (unlimited_ : maxAllowed ≤ 0) {seqs : List Nat} (nodup : seqs.Nodup) :
    ∃ collected : List Nat, (collectLast top maxAllowed tree filters ms seqs).2 =
        some (collected.insertionSort (· ≤ ·)) ∧ collected.Nodup ∧
      ∀ n, n ∈ collected ↔ n ∈ seqs ∨ ∃ filter ∈ filters, ∃ subj,
        tree.visits filter subj = true ∧ lastUpTo ms.msgs top subj = some n := by
  induction filters generalizing ms seqs with
  | nil => exact ⟨seqs, rfl, nodup, fun n => by simp⟩
  | cons filter rest ih =>
    rw [collectLast]
    have gives : ∀ (other : MemStore) subj ss, Consistent other → other.msgs = ms.msgs →
        other.lastSeq = ms.lastSeq → LastKnown ms.msgs subj ss →
        lastSeqOf top other subj ss = lastUpTo ms.msgs top subj := by
      intro other subj ss consistent msgs _ known
      rw [← msgs] at known ⊢
      exact lastSeqOf_eq consistent known
    obtain ⟨consistent, ⟨fss, frame⟩, added⟩ :=
      visitLast_spec ((tree.matched filter).map Prod.fst) h
        (fun sm _ there => tracked filter _ (mem_matched.mp there)) gives
    generalize visitLast _ ((tree.matched filter).map Prod.fst) ms = r at consistent frame added ⊢
    obtain ⟨next, found⟩ := r
    dsimp only at consistent frame added ⊢
    subst frame added
    rw [if_neg (by omega)]
    obtain ⟨nodup', members⟩ := foldl_addIfNotDupe
      (((tree.matched filter).map Prod.fst).filterMap (lastUpTo ms.msgs top)) nodup
    obtain ⟨collected, result, distinct, all⟩ := ih consistent nodup'
    refine ⟨collected, result, distinct, fun n => ?_⟩
    simp only [all, members, mem_filterMap, mem_matched, exists_mem_cons_iff, or_assoc]

theorem subject_unique (h : Consistent ms) {n : Nat} {a b : Bytes}
    (one : n ∈ seqsOf ms.msgs a) (other : n ∈ seqsOf ms.msgs b) : a = b := by
  obtain ⟨sm, inside, rfl, same⟩ := mem_seqsOf.mp one
  obtain ⟨sm', inside', rfl, same'⟩ := mem_seqsOf.mp other
  rw [h.sorted.unique inside inside' (same.trans same'.symm)]

theorem allLastSeqs_spec (h : Consistent ms) {iter : List Bytes}
    (all : iter.Perm (ms.fss.map Prod.fst)) (nonempty : ms.msgs.length ≠ 0) :
    (ms.allLastSeqsLocked iter).2.Pairwise (· < ·) ∧
      ∀ n, n ∈ (ms.allLastSeqsLocked iter).2 ↔
        ∃ subj, Tracked subj ∧ IsGreatest (seqsUpTo ms.msgs subj ms.lastSeq) n := by
  have held : ∀ subj ∈ iter, Tracked subj := by
    intro subj there
    obtain ⟨⟨_, ss⟩, inside, rfl⟩ := mem_map.mp (all.mem_iff.mp there)
    exact (h.index.entry _ ss (Table.get_of_mem h.index.keys inside)).1
  have gives : ∀ (other : MemStore) subj ss, Consistent other → other.msgs = ms.msgs →
      other.lastSeq = ms.lastSeq → LastKnown ms.msgs subj ss →
      some ss.last = lastUpTo ms.msgs ms.lastSeq subj := by
    intro other subj ss _ _ _ known
    obtain ⟨sm, inside, _, at_last⟩ := mem_seqsOf.mp known.last.1
    have below := h.high sm inside
    exact ((lastUpTo_iff h).mpr ⟨⟨known.last.1, by omega⟩, fun m there =>
      known.last.2 there.1⟩).symm
  obtain ⟨_, _, seqs⟩ := visitLast_spec iter h (fun sm _ there => held sm.subj there) gives
  rw [allLastSeqsLocked, if_neg nonempty]
  generalize visitLast _ iter ms = r at seqs ⊢
  dsimp only
  rw [seqs]
  have nodup : (iter.filterMap (lastUpTo ms.msgs ms.lastSeq)).Nodup := by
    refine List.Nodup.filterMap ?_ (all.nodup_iff.mpr h.index.keys)
    intro a b n one other
    exact subject_unique h ((lastUpTo_iff h).mp one).1.1 ((lastUpTo_iff h).mp other).1.1
  obtain ⟨increasing, members⟩ := insertionSort_increasing nodup
  refine ⟨increasing, fun n => ?_⟩
  rw [members, mem_filterMap]
  constructor
  · rintro ⟨subj, there, found⟩
    exact ⟨subj, held subj there, (lastUpTo_iff h).mp found⟩
  · rintro ⟨subj, tracked, greatest⟩
    refine ⟨subj, ?_, (lastUpTo_iff h).mpr greatest⟩
    obtain ⟨sm, inside, rfl, _⟩ := mem_seqsOf.mp greatest.1.1
    obtain ⟨ss, entry⟩ := h.entry_of_mem inside tracked
    exact all.mem_iff.mpr (mem_map.mpr ⟨_, Table.mem_of_get entry, rfl⟩)

/-- The last sequences of some subjects are the right ones exactly if those are the subjects, of
the stored ones with a message up to the bound, that the filters match. -/
theorem lastOfMatching_iff (h : Consistent ms) {answered : Bytes → Prop} {seqs : List Nat}
    (increasing : seqs.Pairwise (· < ·))
    (members : ∀ n, n ∈ seqs ↔ ∃ subj, answered subj ∧ IsGreatest (seqsUpTo ms.msgs subj top) n) :
    LastOfMatching ms.msgs filters top seqs ↔ ∀ sm ∈ ms.msgs, sm.seq ≤ top →
      (answered sm.subj ↔ ∃ filter ∈ filters, FilterMatches filter sm.subj) := by
  constructor
  · rintro ⟨_, matching⟩ sm inside below
    obtain ⟨n, greatest⟩ := exists_last inside below
    have both := (members n).symm.trans (matching n)
    constructor
    · intro given
      obtain ⟨subj, wanted, other⟩ := both.mp ⟨sm.subj, given, greatest⟩
      rw [subject_unique h greatest.1.1 other.1.1]
      exact wanted
    · intro wanted
      obtain ⟨subj, given, other⟩ := both.mpr ⟨sm.subj, wanted, greatest⟩
      rw [subject_unique h greatest.1.1 other.1.1]
      exact given
  · intro same
    refine ⟨increasing, fun n => (members n).trans (exists_congr (fun subj => ?_))⟩
    refine and_congr_left (fun greatest => ?_)
    obtain ⟨sm, inside, rfl, rfl⟩ := mem_seqsOf.mp greatest.1.1
    exact same sm inside greatest.1.2

/-- The subjects that are answered for: those the tree holds if the shortcut is taken, and otherwise
those it visits for some filter. -/
def Answered (tree : FssTree) (subjects filters : List Bytes) (maxSeq : Nat)
    (subj : Bytes) : Prop :=
  if maxSeq = 0 ∧ filterIsAll subjects filters = true then Tracked subj
  else ∃ filter ∈ filters, tree.visits filter subj = true

/-- The answer is right exactly if the subjects that are answered for are those that some filter
matches. -/
theorem multiLastSeqs_exact_iff (h : Consistent ms) (spans : Spans tree ms.fss)
    (subjects filters : List Bytes) {iter : List Bytes} (all : iter.Perm (ms.fss.map Prod.fst))
    (maxSeq : Nat) {maxAllowed : Int} (unlimited_ : maxAllowed ≤ 0) :
    (∃ seqs, (ms.multiLastSeqs tree subjects iter filters maxSeq maxAllowed).2 = some seqs ∧
      LastOfMatching ms.msgs filters (if maxSeq = 0 then ms.lastSeq else maxSeq) seqs) ↔
      ∀ sm ∈ ms.msgs, sm.seq ≤ (if maxSeq = 0 then ms.lastSeq else maxSeq) →
        (Answered tree subjects filters maxSeq sm.subj ↔
          ∃ filter ∈ filters, FilterMatches filter sm.subj) := by
  rw [multiLastSeqs]
  split
  next empty =>
    rw [length_eq_zero_iff] at empty
    refine iff_of_true ⟨[], rfl, List.Pairwise.nil, fun n => ?_⟩ (by simp [empty])
    refine iff_of_false not_mem_nil ?_
    rintro ⟨subj, _, greatest⟩
    obtain ⟨sm, inside, _⟩ := mem_seqsOf.mp greatest.1.1
    rw [empty] at inside
    cases inside
  next empty =>
  split
  next shortcut =>
    obtain ⟨increasing, members⟩ := allLastSeqs_spec h all empty
    simp only [Answered, if_pos shortcut.1, if_pos (And.intro shortcut.1 shortcut.2.2)]
    rw [← lastOfMatching_iff h increasing members]
    constructor
    · rintro ⟨seqs, result, right⟩
      cases result
      exact right
    · exact fun right => ⟨_, rfl, right⟩
  next shortcut =>
  have plain : ¬ (maxSeq = 0 ∧ filterIsAll subjects filters = true) :=
    fun taken => shortcut ⟨taken.1, unlimited_, taken.2⟩
  simp only [Answered, if_neg plain]
  generalize (if maxSeq = 0 then ms.lastSeq else maxSeq) = top
  obtain ⟨collected, result, nodup, members⟩ := @collectLast_spec ms tree top filters h
    (fun _ _ seen => h.index.tracked_of_visits spans seen) maxAllowed unlimited_ [] nodup_nil
  obtain ⟨increasing, sorted⟩ := insertionSort_increasing nodup
  have given : ∀ n, n ∈ collected.insertionSort (· ≤ ·) ↔
      ∃ subj, (∃ filter ∈ filters, tree.visits filter subj = true) ∧
        IsGreatest (seqsUpTo ms.msgs subj top) n := by
    intro n
    rw [sorted, members]
    constructor
    · rintro (none_ | ⟨filter, asked_, subj, seen, last⟩)
      · cases none_
      · exact ⟨subj, ⟨filter, asked_, seen⟩, (lastUpTo_iff h).mp last⟩
    · rintro ⟨subj, ⟨filter, asked_, seen⟩, greatest⟩
      exact .inr ⟨filter, asked_, subj, seen, (lastUpTo_iff h).mpr greatest⟩
  rw [← lastOfMatching_iff h increasing given, result]
  constructor
  · rintro ⟨seqs, same, right⟩
    cases same
    exact right
  · exact fun right => ⟨_, rfl, right⟩

end

def twoSubjects : List Op :=
  [.storeMsg (ascii "a") [] [] 1, .storeMsg (ascii "b") [] [] 2, .storeMsg (ascii "a") [] [] 3]

/-- The subjects of the stream were cut down to one after messages of two were stored: asked for
the last sequence of that one, the shortcut gives the other's too; with the bound written out it
does not. -/
theorem multiLastSeqs_uncovered :
    ∃ ms tree, Reached twoSubjects ms tree ∧ Consistent ms ∧ Spans tree ms.fss ∧
      (ms.multiLastSeqs tree [ascii "a"] [ascii "b", ascii "a"] [ascii "a"] 0 0).2 = some [2, 3] ∧
      ¬ LastOfMatching ms.msgs [ascii "a"] ms.lastSeq [2, 3] ∧
      (ms.multiLastSeqs tree [ascii "a"] [ascii "b", ascii "a"] [ascii "a"] 3 0).2 = some [3] := by
  obtain ⟨ms, tree, there, consistent, spans, second, both, one⟩ :=
    reached twoSubjects (P := fun ms tree =>
      (∀ sm ∈ ms.msgs, sm.seq = 2 → ¬ FilterMatches (ascii "a") sm.subj) ∧
      (ms.multiLastSeqs tree [ascii "a"] [ascii "b", ascii "a"] [ascii "a"] 0 0).2 = some [2, 3] ∧
      (ms.multiLastSeqs tree [ascii "a"] [ascii "b", ascii "a"] [ascii "a"] 3 0).2 = some [3])
      (by decide +kernel) (by decide +kernel)
  refine ⟨ms, tree, there, consistent, spans, both, ?_, one⟩
  rintro ⟨_, members⟩
  obtain ⟨subj, ⟨filter, asked_, good⟩, greatest⟩ := (members 2).mp (by decide)
  obtain ⟨sm, inside, rfl, at_two⟩ := mem_seqsOf.mp greatest.1.1
  rw [mem_singleton.mp asked_] at good
  exact second sm inside at_two good

/-- The same store and filter in a stream with both subjects. -/
theorem multiLastSeqs_covered :
    ∃ ms tree, Reached twoSubjects ms tree ∧ Consistent ms ∧ Spans tree ms.fss ∧
      ((∃ seqs, (ms.multiLastSeqs tree [ascii "a", ascii "b"] [ascii "b", ascii "a"]
          [ascii "a"] 0 0).2 = some seqs ∧
        LastOfMatching ms.msgs [ascii "a"] (if 0 = 0 then ms.lastSeq else 0) seqs) ↔
        ∀ sm ∈ ms.msgs, sm.seq ≤ (if 0 = 0 then ms.lastSeq else 0) →
          (Answered tree [ascii "a", ascii "b"] [ascii "a"] 0 sm.subj ↔
            ∃ filter ∈ [ascii "a"], FilterMatches filter sm.subj)) := by
  obtain ⟨ms, tree, there, consistent, spans, perm⟩ :=
    reached twoSubjects (P := fun ms _ => [ascii "b", ascii "a"].Perm (ms.fss.map Prod.fst))
      (by decide +kernel) (by decide +kernel)
  exact ⟨ms, tree, there, consistent, spans,
    multiLastSeqs_exact_iff consistent spans _ _ perm 0 (Int.le_refl 0)⟩

end LinearNats.Store
