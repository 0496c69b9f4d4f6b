import LinearNats.Store.Runs
import LinearNats.Sublist.Literal
import LinearNats.Sublist.Queries

/-! The next and the previous message that a filter wants. The search for the next one either goes
through all sequences, or asks the tree of subjects for a shorter range; the visit of the tree ends
as soon as a subject has messages on both sides of the start. A loop over the sequences whose last
one is the last 64-bit number starts again at 0. -/
namespace LinearNats.Store
open Server Scan Sublists List Option MemStore

def hit (msgs : List StoreMsg) (eq : Bytes → Bool) (seq : Nat) : Bool :=
  (load msgs seq).any (fun sm => eq sm.subj)

/-- How a loaded subject is compared with the filter; `matchLiteral` takes the tokens one by one. -/
def loadEq (filter : Bytes) (wc : Bool) (subj : Bytes) : Bool :=
  filter == fwcs || if wc then matchLiteral subj filter else subj == filter

namespace MemStore

/-- The visit of the matching subjects, in the order of the tree: whether one was found, and the
bounds of those found. -/
def visitMatches (start : Nat) :
    List Bytes → MemStore → Bool → Nat → Nat → MemStore × Bool × Nat × Nat
  | [], ms, found, first, last => (ms, found, first, last)
  | subj :: rest, ms, found, first, last =>
    match Table.get ms.fss subj with
    | none => visitMatches start rest ms found first last
    | some ss =>
      let (ms, ss) := ms.refresh subj ss
      if ss.last < start then visitMatches start rest ms found first last
      else
        let first := if ss.first < first then ss.first else first
        let last := if last < ss.last then ss.last else last
        if start < first then visitMatches start rest ms true first last
        else (ms, true, first, last)

def nextWildcardMatchLocked (ms : MemStore) (tree : FssTree) (filter : Bytes)
    (start : Nat) : MemStore × Option (Nat × Nat) :=
  let (ms, found, first, last) :=
    visitMatches start ((tree.matched filter).map Prod.fst) ms false ms.lastSeq 0
  (ms, if found then some (max first start, last) else none)

def nextLiteralMatchLocked (ms : MemStore) (filter : Bytes) (start : Nat) :
    MemStore × Option (Nat × Nat) :=
  match Table.get ms.fss filter with
  | none => (ms, none)
  | some ss =>
    let (ms, ss) := ms.refresh filter ss
    (ms, if ss.last < start then none else some (max start ss.first, ss.last))

def linearScanMaxFSS : Nat := 256

def shouldLinearScan (ms : MemStore) (filter : Bytes) (wc : Bool) (start : Nat) : Bool :=
  filter == fwcs ||
    decide (((2 * (ms.lastSeq - start) : Nat) : Int).bmod (2 ^ 64) < ms.fss.length) ||
    wc && decide (linearScanMaxFSS < ms.fss.length)

/-- The loop over the sequences, within `fuel` steps. -/
def scanMsgs (msgs : List StoreMsg) (eq : Bytes → Bool) (fseq lseq fuel : Nat) :
    Option (Option StoreMsg) :=
  (scanUp (hit msgs eq) (2 ^ 64) lseq fuel fseq).map (fun found => found.bind (load msgs))

def loaded (ms : MemStore) (found : Option StoreMsg) : Option StoreMsg × Nat :=
  (found, found.elim ms.lastSeq StoreMsg.seq)

/-- The message and its sequence; no message is the end of the store. -/
def loadNextMsg (ms : MemStore) (tree : FssTree) (filter : Bytes) (wc : Bool)
    (start fuel : Nat) : Option (MemStore × Option StoreMsg × Nat) :=
  let start := if start < ms.firstSeq then ms.firstSeq else start
  if ms.lastSeq < start ∨ ms.stateMsgs = 0 then some (ms, ms.loaded none)
  else
    let filter := orAll filter
    let (ms, range) :=
      if ms.shouldLinearScan filter wc start then (ms, some (start, ms.lastSeq))
      else if wc then ms.nextWildcardMatchLocked tree filter start
      else ms.nextLiteralMatchLocked filter start
    match range with
    | none => some (ms, ms.loaded none)
    | some (fseq, lseq) =>
      (scanMsgs ms.msgs (loadEq filter wc) fseq lseq fuel).map (fun found => (ms, ms.loaded found))

def loadPrevMsg (ms : MemStore) (filter : Bytes) (wc : Bool) (start : Nat) :
    Option StoreMsg × Nat :=
  if ms.stateMsgs = 0 ∨ start < ms.firstSeq then (none, ms.firstSeq)
  else
    let start := if ms.lastSeq < start then ms.lastSeq else start
    let wc := if filter = [] then true else wc
    let filter := orAll filter
    match (lastIn (hit ms.msgs (loadEq filter wc)) ms.firstSeq start).bind (load ms.msgs) with
    | none => (none, ms.firstSeq)
    | some sm => (some sm, sm.seq)

end MemStore

/-- The subjects that a filter wants: all of them, those that match its wildcards, or itself. -/
def wants (filter subj : Bytes) : Bool :=
  if filter = [] then true else loadEq filter (subjectHasWildcard filter) subj

/-- Matching in the subject tree is exact: of the stored subjects it visits those that the filter
wants. -/
def TreeExact (ms : MemStore) (tree : FssTree) (filter : Bytes) : Prop :=
  ∀ sm ∈ ms.msgs, tree.visits (orAll filter) sm.subj = wants filter sm.subj

def wantedFrom (msgs : List StoreMsg) (eq : Bytes → Bool) (start : Nat) : Set Nat :=
  {n | ∃ sm ∈ msgs, sm.seq = n ∧ eq sm.subj = true ∧ start ≤ n}

def wantedUpTo (msgs : List StoreMsg) (eq : Bytes → Bool) (start : Nat) : Set Nat :=
  {n | ∃ sm ∈ msgs, sm.seq = n ∧ eq sm.subj = true ∧ n ≤ start}

/-- The message at the least wanted sequence, or the end of the store if nothing is wanted. -/
def IsNext (ms : MemStore) (filter : Bytes) (start : Nat) : Option StoreMsg × Nat → Prop
  | (some sm, seq) => sm ∈ ms.msgs ∧ sm.seq = seq ∧
      IsLeast (wantedFrom ms.msgs (wants filter) start) seq
  | (none, seq) => wantedFrom ms.msgs (wants filter) start = ∅ ∧ seq = ms.lastSeq

def IsPrev (ms : MemStore) (filter : Bytes) (start : Nat) : Option StoreMsg × Nat → Prop
  | (some sm, seq) => sm ∈ ms.msgs ∧ sm.seq = seq ∧
      IsGreatest (wantedUpTo ms.msgs (wants filter) start) seq
  | (none, seq) => wantedUpTo ms.msgs (wants filter) start = ∅ ∧ seq = ms.firstSeq

section

variable {msgs : List StoreMsg} {eq : Bytes → Bool} {sm : StoreMsg} {n lo hi start : Nat}

theorem hit_iff (sorted : Sorted msgs) :
    hit msgs eq n = true ↔ ∃ sm ∈ msgs, sm.seq = n ∧ eq sm.subj = true := by
  rw [hit, Option.any_eq_true]
  constructor
  · rintro ⟨sm, found, good⟩
    exact ⟨sm, (load_mem found).1, (load_mem found).2, good⟩
  · rintro ⟨sm, inside, rfl, good⟩
    exact ⟨sm, sorted.load inside, good⟩

theorem load_of_hit (there : hit msgs eq n = true) :
    ∃ sm, load msgs n = some sm ∧ sm ∈ msgs ∧ sm.seq = n := by
  obtain ⟨sm, found, _⟩ := any_eq_true _ _ |>.mp there
  exact ⟨sm, found, load_mem found⟩

theorem scan_least (sorted : Sorted msgs) (least : IsLeast (wantedFrom msgs eq start) n)
    (low : start ≤ lo) (before : lo ≤ n) (after : n ≤ hi) (word : n < 2 ^ 64) :
    ∃ fuel, ∃ sm ∈ msgs, scanMsgs msgs eq lo hi fuel = some (some sm) ∧ sm.seq = n := by
  obtain ⟨⟨sm, inside, rfl, good, _⟩, minimal⟩ := least
  have first : ∀ m, lo ≤ m → m < sm.seq → hit msgs eq m = false := by
    intro m above early
    rw [Bool.eq_false_iff]
    intro there
    obtain ⟨other, there', same, good'⟩ := (hit_iff sorted).mp there
    have := minimal ⟨other, there', same, good', by omega⟩
    omega
  refine ⟨sm.seq - lo + 1, sm, inside, ?_, rfl⟩
  rw [scanMsgs, scanUp_found ((hit_iff sorted).mpr ⟨sm, inside, rfl, good⟩) before after word first,
    map_some, bind_some, sorted.load inside]

theorem scan_empty (sorted : Sorted msgs) (empty : wantedFrom msgs eq start = ∅)
    (low : start ≤ lo) (room : hi + 1 < 2 ^ 64) :
    ∃ fuel, scanMsgs msgs eq lo hi fuel = some none := by
  have nothing : ∀ m, lo ≤ m → m ≤ hi → hit msgs eq m = false := by
    intro m above _
    rw [Bool.eq_false_iff]
    intro there
    obtain ⟨sm, inside, same, good⟩ := (hit_iff sorted).mp there
    have : m ∈ wantedFrom msgs eq start := ⟨sm, inside, same, good, by omega⟩
    rw [empty] at this
    cases this
  refine ⟨hi + 1 - lo + 1, ?_⟩
  rw [scanMsgs, scanUp_done room nothing]
  rfl

theorem scan_wraps (all : hi + 1 = 2 ^ 64) (inside : lo ≤ hi) (fuel : Nat) :
    scanMsgs msgs eq lo hi fuel ≠ some none := by
  rw [scanMsgs, Ne, Option.map_eq_some_iff]
  rintro ⟨_ | n, result, missing⟩
  · exact scanUp_wraps all inside result
  · obtain ⟨sm, found, _⟩ := load_of_hit (scanUp_sound result)
    rw [bind_some, found] at missing
    cases missing

end

section Visit

variable {ms : MemStore} {start : Nat}

theorem refresh_fss (ms : MemStore) (subj : Bytes) (ss : SimpleState) :
    ∃ fss, (ms.refresh subj ss).1 = { ms with fss := fss } := by
  rw [refresh]
  split
  · exact ⟨_, rfl⟩
  · exact ⟨ms.fss, rfl⟩

theorem UpToDate.bounds {subj : Bytes} {ss : SimpleState}
    (exact_ : UpToDate (seqsOf ms.msgs subj) ss) {sm : StoreMsg} (inside : sm ∈ ms.msgs)
    (same : sm.subj = subj) : ss.first ≤ sm.seq ∧ sm.seq ≤ ss.last :=
  have there := mem_seqsOf.mpr ⟨sm, inside, same, rfl⟩
  ⟨exact_.first.2 there, exact_.last.2 there⟩

/-- What a visit of the subjects `done` says: whether one has messages from the start on, and
bounds for those messages. -/
structure Holds (msgs : List StoreMsg) (start : Nat) (done : Bytes → Prop) (found : Bool)
    (first last : Nat) : Prop where
  real : found = true → ∃ sm ∈ msgs, done sm.subj ∧ start ≤ sm.seq
  bounds : ∀ sm ∈ msgs, done sm.subj → start ≤ sm.seq →
    found = true ∧ first ≤ sm.seq ∧ sm.seq ≤ last

def Settles (msgs : List StoreMsg) (start : Nat) (order : List Bytes) (found : Bool)
    (first last : Nat) : Prop :=
  found = true ∧ first ≤ start ∧ ∃ sm ∈ msgs, sm.subj ∈ order ∧ start ≤ sm.seq ∧ sm.seq ≤ last

theorem Holds.congr {done done' : Bytes → Prop} {found : Bool} {first last : Nat}
    (holds : Holds ms.msgs start done found first last) (same : ∀ subj, done' subj ↔ done subj) :
    Holds ms.msgs start done' found first last where
  real yes := by
    obtain ⟨sm, inside, before, late⟩ := holds.real yes
    exact ⟨sm, inside, (same _).mpr before, late⟩
  bounds sm inside before late := holds.bounds sm inside ((same _).mp before) late

theorem Holds.extend {done : Bytes → Prop} {found : Bool} {first last : Nat} {subj : Bytes}
    {ss : SimpleState} (holds : Holds ms.msgs start done found first last)
    (exact_ : UpToDate (seqsOf ms.msgs subj) ss) (live : start ≤ ss.last) :
    Holds ms.msgs start (fun other => done other ∨ other = subj) true
      (if ss.first < first then ss.first else first)
      (if last < ss.last then ss.last else last) := by
  constructor
  · intro _
    obtain ⟨sm, inside, same, at_last⟩ := mem_seqsOf.mp exact_.last.1
    exact ⟨sm, inside, .inr same, by omega⟩
  · rintro sm inside (before | same) late
    · obtain ⟨_, low, high⟩ := holds.bounds sm inside before late
      refine ⟨rfl, ?_, ?_⟩ <;> split <;> omega
    · obtain ⟨low, high⟩ := exact_.bounds inside same
      refine ⟨rfl, ?_, ?_⟩ <;> split <;> omega

theorem Holds.skip {done : Bytes → Prop} {found : Bool} {first last : Nat} {subj : Bytes}
    (holds : Holds ms.msgs start done found first last)
    (early : ∀ sm ∈ ms.msgs, sm.subj = subj → sm.seq < start) :
    Holds ms.msgs start (fun other => done other ∨ other = subj) found first last := by
  constructor
  · intro yes
    obtain ⟨sm, inside, before, late⟩ := holds.real yes
    exact ⟨sm, inside, .inl before, late⟩
  · rintro sm inside (before | same) late
    · exact holds.bounds sm inside before late
    · have := early sm inside same
      omega

/-- The visit either goes through all subjects, or ends with a message in its range. -/
theorem visitMatches_spec (order : List Bytes) (h : Intact ms) (word : ms.lastSeq < 2 ^ 64)
    (tracked : ∀ sm ∈ ms.msgs, sm.subj ∈ order → Tracked sm.subj) {done : Bytes → Prop}
    {found : Bool} {first last : Nat} (holds : Holds ms.msgs start done found first last)
    {r : MemStore × Bool × Nat × Nat}
    (result : visitMatches start order ms found first last = r) :
    (∃ fss, r.1 = { ms with fss := fss }) ∧
      (Holds ms.msgs start (fun subj => done subj ∨ subj ∈ order) r.2.1 r.2.2.1 r.2.2.2 ∨
        Settles ms.msgs start order r.2.1 r.2.2.1 r.2.2.2) := by
  induction order generalizing ms done found first last with
  | nil =>
    subst result
    exact ⟨⟨ms.fss, rfl⟩, .inl (holds.congr (fun subj => by simp))⟩
  | cons subj rest ih =>
    -- What the rest of the visit gives, from a store that differs in its totals only.
    have further : ∀ {next : MemStore} {found' : Bool} {first' last' : Nat} {fss : SubjectTree},
        next = { ms with fss := fss } → Indexed ms.msgs fss →
        Holds ms.msgs start (fun other => done other ∨ other = subj) found' first' last' →
        visitMatches start rest next found' first' last' = r →
        (∃ fss, r.1 = { ms with fss := fss }) ∧
          (Holds ms.msgs start (fun other => done other ∨ other ∈ subj :: rest)
              r.2.1 r.2.2.1 r.2.2.2 ∨
            Settles ms.msgs start (subj :: rest) r.2.1 r.2.2.1 r.2.2.2) := by
      rintro next found' first' last' fss rfl index holds' result'
      have intact : Intact { ms with fss := fss } := { h with index := index }
      obtain ⟨⟨fss', same⟩, outcome⟩ := ih intact word
        (fun sm inside later => tracked sm inside (mem_cons_of_mem subj later)) holds' result'
      have members : ∀ other, done other ∨ other ∈ subj :: rest ↔
          (done other ∨ other = subj) ∨ other ∈ rest := by
        intro other
        rw [List.mem_cons]
        tauto
      refine ⟨⟨fss', same⟩, outcome.imp (fun all => all.congr members) ?_⟩
      rintro ⟨yes, low, sm, inside, later, bounds⟩
      exact ⟨yes, low, sm, inside, mem_cons_of_mem subj later, bounds⟩
    rw [visitMatches] at result
    cases entry : Table.get ms.fss subj with
    | none =>
      rw [entry] at result
      refine further rfl h.index (holds.skip ?_) result
      intro sm inside same
      obtain ⟨ss, there⟩ := h.entry_of_mem inside (tracked sm inside (same ▸ mem_cons_self))
      rw [same, entry] at there
      cases there
    | some ss =>
      rw [entry] at result
      obtain ⟨fss, frame, index, exact_⟩ := h.refresh word entry
      dsimp only at result
      generalize ms.refresh subj ss = refreshed at *
      obtain ⟨next, ss⟩ := refreshed
      dsimp only at exact_ frame result
      split at result
      next early =>
        refine further frame index (holds.skip ?_) result
        intro sm inside same
        have := (exact_.bounds inside same).2
        omega
      rename_i late
      have extended := holds.extend exact_ (le_of_not_gt late)
      have reach : ss.last ≤ if last < ss.last then ss.last else last := by split <;> omega
      generalize (if ss.first < first then ss.first else first) = first' at result extended
      generalize (if last < ss.last then ss.last else last) = last' at result extended reach
      split at result
      · exact further frame index extended result
      next more =>
      subst result
      refine ⟨⟨fss, frame⟩, .inr ⟨rfl, le_of_not_gt more, ?_⟩⟩
      obtain ⟨sm, inside, same, at_last⟩ := mem_seqsOf.mp exact_.last.1
      exact ⟨sm, inside, by rw [same]; exact mem_cons_self, by omega, by
        dsimp only
        omega⟩

end Visit

/-- What the tree gives: `none` if nothing is wanted, and otherwise a range that has the least
wanted sequence in it. -/
def Narrowed (msgs : List StoreMsg) (eq : Bytes → Bool) (start : Nat) : Option (Nat × Nat) → Prop
  | none => wantedFrom msgs eq start = ∅
  | some (fseq, lseq) => start ≤ fseq ∧ (wantedFrom msgs eq start).Nonempty ∧
      ∀ n, IsLeast (wantedFrom msgs eq start) n → fseq ≤ n ∧ n ≤ lseq

section

variable {ms : MemStore} {eq : Bytes → Bool} {start : Nat} {filter : Bytes}
  {tree : FssTree}

theorem wantedFrom_least (msgs : List StoreMsg) (eq : Bytes → Bool) (start : Nat) :
    wantedFrom msgs eq start = ∅ ∨ ∃ n, IsLeast (wantedFrom msgs eq start) n := by
  rcases Set.eq_empty_or_nonempty (wantedFrom msgs eq start) with empty | some_
  · exact .inl empty
  · exact .inr ⟨sInf _, Nat.sInf_mem some_, fun n inside => Nat.sInf_le inside⟩

theorem mem_matched {subj : Bytes} :
    subj ∈ (tree.matched filter).map Prod.fst ↔ tree.visits filter subj = true := by
  simp [Stree.SubjectTree.visits]

theorem nextWildcardMatchLocked_narrowed (h : Intact ms) (word : ms.lastSeq < 2 ^ 64)
    (spans : Spans tree ms.fss)
    (visits : ∀ sm ∈ ms.msgs, tree.visits filter sm.subj = eq sm.subj) :
    (∃ fss, (ms.nextWildcardMatchLocked tree filter start).1 = { ms with fss := fss }) ∧
      Narrowed ms.msgs eq start (ms.nextWildcardMatchLocked tree filter start).2 := by
  have visited : ∀ sm ∈ ms.msgs, sm.subj ∈ (tree.matched filter).map Prod.fst ↔
      eq sm.subj = true := fun sm inside => by rw [mem_matched, visits sm inside]
  have nothing : Holds ms.msgs start (fun _ => False) false ms.lastSeq 0 :=
    ⟨fun yes => absurd yes Bool.false_ne_true, fun _ _ none_ => none_.elim⟩
  obtain ⟨frame, outcome⟩ := visitMatches_spec ((tree.matched filter).map Prod.fst) h word
    (fun sm _ seen => h.index.tracked_of_visits spans (mem_matched.mp seen)) nothing rfl
  rw [nextWildcardMatchLocked]
  generalize visitMatches start _ ms false ms.lastSeq 0 = r at frame outcome ⊢
  obtain ⟨next, found, first, last⟩ := r
  refine ⟨frame, ?_⟩
  dsimp only at outcome ⊢
  cases found with
  | false =>
    rcases outcome with all | ⟨yes, _⟩
    · rw [if_neg Bool.false_ne_true, Narrowed, Set.eq_empty_iff_forall_notMem]
      rintro n ⟨sm, inside, rfl, good, late⟩
      have found := (all.bounds sm inside (.inr ((visited sm inside).mpr good)) late).1
      cases found
    · cases yes
  | true =>
    rw [if_pos rfl]
    refine ⟨le_max_right _ _, ?_, ?_⟩
    · rcases outcome with all | ⟨_, _, sm, inside, seen, late, _⟩
      · obtain ⟨sm, inside, none_ | seen, late⟩ := all.real rfl
        · exact none_.elim
        · exact ⟨sm.seq, sm, inside, rfl, (visited sm inside).mp seen, late⟩
      · exact ⟨sm.seq, sm, inside, rfl, (visited sm inside).mp seen, late⟩
    rintro n ⟨⟨sm, inside, rfl, good, late⟩, least⟩
    rcases outcome with all | ⟨_, early, other, there, seen, late', below⟩
    · obtain ⟨_, low, high⟩ := all.bounds sm inside (.inr ((visited sm inside).mpr good)) late
      exact ⟨Nat.max_le.mpr ⟨low, late⟩, high⟩
    · have := least ⟨other, there, rfl, (visited other there).mp seen, late'⟩
      exact ⟨Nat.max_le.mpr ⟨by omega, late⟩, by omega⟩

theorem nextLiteralMatchLocked_narrowed (h : Intact ms) (word : ms.lastSeq < 2 ^ 64)
    (tracked : ∀ sm ∈ ms.msgs, sm.subj = filter → Tracked sm.subj)
    (same : ∀ subj, eq subj = true ↔ subj = filter) :
    (∃ fss, (ms.nextLiteralMatchLocked filter start).1 = { ms with fss := fss }) ∧
      Narrowed ms.msgs eq start (ms.nextLiteralMatchLocked filter start).2 := by
  rw [nextLiteralMatchLocked]
  cases entry : Table.get ms.fss filter with
  | none =>
    refine ⟨⟨ms.fss, rfl⟩, ?_⟩
    rw [Narrowed, Set.eq_empty_iff_forall_notMem]
    rintro n ⟨sm, inside, _, good, _⟩
    have equal := (same _).mp good
    obtain ⟨ss, there⟩ := h.entry_of_mem inside (tracked sm inside equal)
    rw [equal, entry] at there
    cases there
  | some ss =>
    obtain ⟨fss, frame, _, exact_⟩ := h.refresh word entry
    dsimp only
    generalize ms.refresh filter ss = r at exact_ frame ⊢
    obtain ⟨next, ss⟩ := r
    refine ⟨⟨fss, frame⟩, ?_⟩
    dsimp only at exact_ ⊢
    split
    next early =>
      rw [Narrowed, Set.eq_empty_iff_forall_notMem]
      rintro n ⟨sm, inside, rfl, good, late⟩
      have := (exact_.bounds inside ((same _).mp good)).2
      omega
    next live =>
    refine ⟨le_max_left _ _, ?_, ?_⟩
    · obtain ⟨sm, inside, subj, at_last⟩ := mem_seqsOf.mp exact_.last.1
      exact ⟨sm.seq, sm, inside, rfl, (same _).mpr subj, by omega⟩
    · rintro n ⟨⟨sm, inside, rfl, good, late⟩, _⟩
      obtain ⟨low, high⟩ := exact_.bounds inside ((same _).mp good)
      exact ⟨Nat.max_le.mpr ⟨late, low⟩, high⟩

theorem loadEq_wants (filter : Bytes) : loadEq (orAll filter) (subjectHasWildcard filter) =
    wants filter := by
  funext subj
  rw [wants, orAll]
  split <;> rfl

theorem loadEq_literal {subj : Bytes} (part : filter ≠ fwcs) :
    loadEq filter false subj = true ↔ subj = filter := by
  simp [loadEq, part]

/-- Only a filter that does not want everything is taken to the tree. -/
theorem orAll_of_indexed (indexed : ms.shouldLinearScan (orAll filter)
    (subjectHasWildcard filter) start = false) : orAll filter = filter ∧ filter ≠ fwcs := by
  have part : orAll filter ≠ fwcs := by
    intro all
    rw [shouldLinearScan, all] at indexed
    simp at indexed
  by_cases empty : filter = []
  · exact absurd (if_pos empty) part
  · have same : orAll filter = filter := if_neg empty
    exact ⟨same, same ▸ part⟩

theorem wantedFrom_first (h : Intact ms) (eq : Bytes → Bool) (start : Nat) :
    wantedFrom ms.msgs eq start =
      wantedFrom ms.msgs eq (if start < ms.firstSeq then ms.firstSeq else start) := by
  split
  · ext n
    constructor
    · rintro ⟨sm, inside, rfl, good, _⟩
      exact ⟨sm, inside, rfl, good, h.low sm inside⟩
    · rintro ⟨sm, inside, rfl, good, late⟩
      exact ⟨sm, inside, rfl, good, by omega⟩
  · rfl

section

variable (h : Intact ms) (word : ms.lastSeq < 2 ^ 64)

include h word

theorem range_narrowed (spans : Spans tree ms.fss) (tree_exact : TreeExact ms tree filter)
    (indexed : ms.shouldLinearScan (orAll filter) (subjectHasWildcard filter) start = false) :
    let r := if subjectHasWildcard filter then ms.nextWildcardMatchLocked tree (orAll filter) start
      else ms.nextLiteralMatchLocked (orAll filter) start
    (∃ fss, r.1 = { ms with fss := fss }) ∧ Narrowed ms.msgs (wants filter) start r.2 := by
  intro r
  obtain ⟨same, part⟩ := orAll_of_indexed indexed
  by_cases wc : subjectHasWildcard filter = true
  · have wild : r = ms.nextWildcardMatchLocked tree (orAll filter) start := if_pos wc
    rw [wild]
    exact nextWildcardMatchLocked_narrowed h word spans tree_exact
  have plain : r = ms.nextLiteralMatchLocked (orAll filter) start := if_neg wc
  have literal : ∀ subj, wants filter subj = true ↔ subj = orAll filter := by
    intro subj
    rw [← loadEq_wants, Bool.eq_false_iff.mpr wc, same, loadEq_literal part]
  rw [plain]
  refine nextLiteralMatchLocked_narrowed h word (fun sm inside equal => ?_) literal
  have seen := tree_exact sm inside
  rw [(literal _).mpr equal] at seen
  exact h.index.tracked_of_visits spans seen

/-- What a search that has a range to look through needs in order to be right. -/
theorem scan_isNext {fseq lseq : Nat} (low : start ≤ fseq)
    (range : ∀ n, IsLeast (wantedFrom ms.msgs (wants filter) start) n → fseq ≤ n ∧ n ≤ lseq)
    (ends : lseq + 1 < 2 ^ 64 ∨ (wantedFrom ms.msgs (wants filter) start).Nonempty) :
    ∃ fuel found, scanMsgs ms.msgs (wants filter) fseq lseq fuel = some found ∧
      IsNext ms filter start (ms.loaded found) := by
  rcases wantedFrom_least ms.msgs (wants filter) start with empty | ⟨n, least⟩
  · have room := ends.resolve_right (Set.not_nonempty_iff_eq_empty.mpr empty)
    obtain ⟨fuel, done⟩ := scan_empty h.sorted empty low room
    exact ⟨fuel, none, done, empty, rfl⟩
  · obtain ⟨before, after⟩ := range n least
    obtain ⟨sm, inside, rfl, _⟩ := least.1
    have high := h.high sm inside
    obtain ⟨fuel, found, there, result, same⟩ :=
      scan_least h.sorted least low before after (by omega)
    refine ⟨fuel, some found, result, there, rfl, ?_⟩
    rw [← same] at least
    exact least

end

/-- The loop over the sequences comes to an end: it finds a message, or the sequence after the last
one is a 64-bit number, or it does not go up to the last one. -/
def ScanEnds (ms : MemStore) (filter : Bytes) (start : Nat) : Prop :=
  ms.lastSeq + 1 < 2 ^ 64 ∨ ms.msgs = [] ∨ ms.lastSeq < start ∨
    ms.shouldLinearScan (orAll filter) (subjectHasWildcard filter)
      (if start < ms.firstSeq then ms.firstSeq else start) = false ∨
    (wantedFrom ms.msgs (wants filter) start).Nonempty

theorem ScanEnds.clamp (h : Intact ms) (before : start < ms.firstSeq) :
    ScanEnds ms filter start ↔ ScanEnds ms filter ms.firstSeq := by
  have same := wantedFrom_first h (wants filter) start
  rw [if_pos before] at same
  have past : ms.lastSeq < ms.firstSeq → ms.msgs = [] := by
    intro crossed
    by_contra nonempty
    have := h.bounds (h.first nonempty)
    omega
  simp only [ScanEnds, if_pos before, if_neg (lt_irrefl ms.firstSeq), same]
  constructor
  · rintro (room | none_ | late | rest)
    · exact .inl room
    · exact .inr (.inl none_)
    · exact .inr (.inr (.inl (by omega)))
    · exact .inr (.inr (.inr rest))
  · rintro (room | none_ | late | rest)
    · exact .inl room
    · exact .inr (.inl none_)
    · exact .inr (.inl (past late))
    · exact .inr (.inr (.inr rest))

theorem loadNextMsg_clamp (before : start < ms.firstSeq) (wc : Bool) (fuel : Nat) :
    ms.loadNextMsg tree filter wc start fuel = ms.loadNextMsg tree filter wc ms.firstSeq fuel := by
  simp only [loadNextMsg, if_pos before, if_neg (lt_irrefl ms.firstSeq)]

section

variable (h : Intact ms) (word : ms.lastSeq < 2 ^ 64) (low : ms.firstSeq ≤ start)

include h word low

theorem loadNextMsg_isNext (spans : Spans tree ms.fss)
    (tree_exact : TreeExact ms tree filter) (ends : ScanEnds ms filter start) :
    ∃ fuel r, ms.loadNextMsg tree filter (subjectHasWildcard filter) start fuel = some r ∧
      IsNext ms filter start r.2 := by
  simp only [ScanEnds, loadNextMsg, loadEq_wants, if_neg (not_lt.mpr low)] at ends ⊢
  split
  next past =>
    refine ⟨0, _, rfl, ?_, rfl⟩
    rw [Set.eq_empty_iff_forall_notMem]
    rintro n ⟨sm, inside, rfl, _, late⟩
    rcases past with past | none_
    · have := h.high sm inside
      omega
    · rw [h.count, length_eq_zero_iff] at none_
      rw [none_] at inside
      cases inside
  next more =>
  rw [h.count, length_eq_zero_iff, not_or, not_lt] at more
  by_cases linear : ms.shouldLinearScan (orAll filter) (subjectHasWildcard filter) start = true
  · have found : ∃ fuel found, scanMsgs ms.msgs (wants filter) start ms.lastSeq fuel = some found ∧
        IsNext ms filter start (ms.loaded found) := by
      refine scan_isNext h word le_rfl ?_ ?_
      · rintro n ⟨⟨sm, inside, rfl, _, late⟩, _⟩
        exact ⟨late, h.high sm inside⟩
      · rcases ends with room | none_ | past | indexed | some_
        · exact .inl room
        · exact absurd none_ more.2
        · omega
        · rw [linear] at indexed
          cases indexed
        · exact .inr some_
    obtain ⟨fuel, found, result, next⟩ := found
    refine ⟨fuel, (ms, ms.loaded found), ?_, next⟩
    simp only [if_pos linear, result, Option.map_some]
  · have indexed := Bool.eq_false_iff.mpr linear
    obtain ⟨⟨fss, frame⟩, narrowed⟩ := range_narrowed h word spans tree_exact indexed
    simp only [if_neg linear]
    generalize (if subjectHasWildcard filter = true then
      ms.nextWildcardMatchLocked tree (orAll filter) start
      else ms.nextLiteralMatchLocked (orAll filter) start) = r at frame narrowed ⊢
    obtain ⟨next, _ | ⟨fseq, lseq⟩⟩ := r
    · exact ⟨0, _, rfl, narrowed, by rw [frame]; rfl⟩
    · obtain ⟨start_le, some_, range⟩ := narrowed
      obtain ⟨fuel, found, result, isNext⟩ := scan_isNext h word start_le range (.inr some_)
      obtain rfl : next = { ms with fss := fss } := frame
      exact ⟨fuel, (_, ms.loaded found), by simp only [result, Option.map_some]; rfl, isNext⟩

theorem scanEnds_of_isNext {wc : Bool} (wildcard : wc = subjectHasWildcard filter) {fuel : Nat}
    {r : MemStore × Option StoreMsg × Nat}
    (result : ms.loadNextMsg tree filter wc start fuel = some r)
    (next : IsNext ms filter start r.2) : ScanEnds ms filter start := by
  by_contra endless
  simp only [ScanEnds, if_neg (not_lt.mpr low), not_or, not_lt, Bool.not_eq_false,
    Set.not_nonempty_iff_eq_empty] at endless
  obtain ⟨top, some_, inside, linear, empty⟩ := endless
  subst wildcard
  simp only [loadNextMsg, if_neg (not_lt.mpr low), loadEq_wants, linear, if_true] at result
  rw [if_neg (by
    rw [h.count, length_eq_zero_iff, not_or, not_lt]
    exact ⟨inside, some_⟩)] at result
  obtain ⟨_ | sm, scanned, rfl⟩ := Option.map_eq_some_iff.mp result
  · exact scan_wraps (by omega) inside fuel scanned
  · have wanted := next.2.2.1
    rw [empty] at wanted
    cases wanted

end

theorem loadNextMsg_isNext_iff (h : Intact ms) (word : ms.lastSeq < 2 ^ 64)
    (spans : Spans tree ms.fss) (tree_exact : TreeExact ms tree filter) (start : Nat) :
    (∃ fuel r, ms.loadNextMsg tree filter (subjectHasWildcard filter) start fuel = some r ∧
        IsNext ms filter start r.2) ↔ ScanEnds ms filter start := by
  by_cases before : start < ms.firstSeq
  · have same := wantedFrom_first h (wants filter) start
    rw [if_pos before] at same
    have isNext : ∀ r, IsNext ms filter start r ↔ IsNext ms filter ms.firstSeq r := by
      rintro ⟨_ | sm, seq⟩ <;> simp only [IsNext, same]
    simp only [loadNextMsg_clamp before, isNext, ScanEnds.clamp h before]
    exact ⟨fun ⟨_, _, result, next⟩ => scanEnds_of_isNext h word le_rfl rfl result next,
      loadNextMsg_isNext h word le_rfl spans tree_exact⟩
  · have low := not_lt.mp before
    exact ⟨fun ⟨_, _, result, next⟩ => scanEnds_of_isNext h word low rfl result next,
      loadNextMsg_isNext h word low spans tree_exact⟩

theorem loadPrevMsg_isPrev (h : Intact ms) (filter : Bytes) (start : Nat) :
    IsPrev ms filter start (ms.loadPrevMsg filter (subjectHasWildcard filter) start) := by
  rw [loadPrevMsg]
  split
  next before =>
    refine ⟨?_, rfl⟩
    rw [Set.eq_empty_iff_forall_notMem]
    rintro n ⟨sm, inside, rfl, _, early⟩
    rcases before with none_ | before
    · rw [h.count, length_eq_zero_iff] at none_
      rw [none_] at inside
      cases inside
    · have := h.low sm inside
      omega
  · have eq : loadEq (orAll filter) (if filter = [] then true else subjectHasWildcard filter) =
        wants filter := by
      funext subj
      rw [wants, orAll]
      split <;> rfl
    dsimp only
    rw [eq]
    -- The scan meets every wanted message up to the start.
    have meets : ∀ sm ∈ ms.msgs, wants filter sm.subj = true → sm.seq ≤ start →
        ms.firstSeq ≤ sm.seq ∧ sm.seq ≤ (if ms.lastSeq < start then ms.lastSeq else start) ∧
          hit ms.msgs (wants filter) sm.seq = true := by
      intro sm inside good early
      refine ⟨h.low sm inside, ?_, (hit_iff h.sorted).mpr ⟨sm, inside, rfl, good⟩⟩
      have := h.high sm inside
      split <;> assumption
    generalize bound : (if ms.lastSeq < start then ms.lastSeq else start) = top at meets ⊢
    cases found : lastIn (hit ms.msgs (wants filter)) ms.firstSeq top with
    | none =>
      refine ⟨?_, rfl⟩
      rw [Set.eq_empty_iff_forall_notMem]
      rintro n ⟨sm, inside, rfl, good, early⟩
      obtain ⟨low, high, there⟩ := meets sm inside good early
      rw [lastIn_none.mp found sm.seq low high] at there
      cases there
    | some n =>
      obtain ⟨_, high, there, greatest⟩ := lastIn_some found
      obtain ⟨sm, loaded, inside, rfl⟩ := load_of_hit there
      rw [bind_some, loaded]
      obtain ⟨other, there', same, good⟩ := (hit_iff h.sorted).mp there
      have below : sm.seq ≤ start := by
        split at bound <;> omega
      refine ⟨inside, rfl, ⟨other, there', same, good, below⟩, ?_⟩
      rintro m ⟨another, inside', rfl, good', early⟩
      obtain ⟨low, high', hit_⟩ := meets another inside' good' early
      exact greatest _ low high' hit_

/-- Whichever way the search for the next message takes, it and the search for the previous one
find the nearest stored message that the filter wants, or the end of the store: exactly if the loop
of the first one ends. -/
theorem load_next_and_prev_iff (h : Intact ms) (word : ms.lastSeq < 2 ^ 64)
    (spans : Spans tree ms.fss) (tree_exact : TreeExact ms tree filter) {wc : Bool}
    (wildcard : wc = subjectHasWildcard filter) (start : Nat) :
    ((∃ fuel r, ms.loadNextMsg tree filter wc start fuel = some r ∧
        IsNext ms filter start r.2) ∧
      IsPrev ms filter start (ms.loadPrevMsg filter wc start)) ↔ ScanEnds ms filter start := by
  rw [wildcard, and_iff_left (loadPrevMsg_isPrev h filter start)]
  exact loadNextMsg_isNext_iff h word spans tree_exact start

end

def lastSequence : List Op := [.compact (2 ^ 64 - 1), .storeMsg (ascii "a") [] [] 1]

theorem loadNextMsg_none {ms : MemStore} {filter : Bytes} {wc : Bool} {start : Nat}
    (top : ms.lastSeq + 1 = 2 ^ 64) (range : ms.firstSeq ≤ ms.lastSeq ∧ start ≤ ms.lastSeq)
    (some_ : ms.stateMsgs ≠ 0) (linear : ms.shouldLinearScan (orAll filter) wc
      (if start < ms.firstSeq then ms.firstSeq else start) = true)
    (other : ∀ sm ∈ ms.msgs, loadEq (orAll filter) wc sm.subj = false)
    (tree : FssTree) (fuel : Nat) :
    ms.loadNextMsg tree filter wc start fuel = none := by
  have inside : (if start < ms.firstSeq then ms.firstSeq else start) ≤ ms.lastSeq := by
    split
    · exact range.1
    · exact range.2
  simp only [loadNextMsg, linear, if_true]
  generalize (if start < ms.firstSeq then ms.firstSeq else start) = from_ at inside
  rw [if_neg (not_or.mpr ⟨not_lt.mpr inside, some_⟩), Option.map_eq_none_iff]
  cases scanned : scanMsgs ms.msgs (loadEq (orAll filter) wc) from_ ms.lastSeq fuel with
  | none => rfl
  | some found =>
    exfalso
    obtain ⟨_ | n, result, rfl⟩ := Option.map_eq_some_iff.mp scanned
    · exact scanUp_wraps top inside result
    · obtain ⟨sm, loaded, good⟩ := Option.any_eq_true _ _ |>.mp (scanUp_sound result)
      rw [other sm (load_mem loaded).1] at good
      cases good

/-- With a message at the last sequence that there is, a search for another subject does not end. -/
theorem loadNextMsg_endless :
    ∃ ms, run step (some (newMemStore unlimited)) lastSequence = some ms ∧
      ∀ tree fuel, ms.loadNextMsg tree (ascii "b") false 0 fuel = none := by
  have facts : ∀ ms ∈ run step (some (newMemStore unlimited)) lastSequence,
      ms.lastSeq + 1 = 2 ^ 64 ∧ (ms.firstSeq ≤ ms.lastSeq ∧ 0 ≤ ms.lastSeq) ∧ ms.stateMsgs ≠ 0 ∧
        ms.shouldLinearScan (orAll (ascii "b")) false
          (if 0 < ms.firstSeq then ms.firstSeq else 0) = true ∧
        ∀ sm ∈ ms.msgs, loadEq (orAll (ascii "b")) false sm.subj = false := by decide +kernel
  obtain ⟨ms, result⟩ : ∃ ms, run step (some (newMemStore unlimited)) lastSequence = some ms :=
    ⟨_, rfl⟩
  obtain ⟨top, range, some_, linear, other⟩ := facts ms result
  exact ⟨ms, result, loadNextMsg_none top range some_ linear other⟩

def wildOps : List Op :=
  [.storeMsg (ascii "a.1") [] [] 1, .storeMsg (ascii "b") [] [] 2, .storeMsg (ascii "a.1") [] [] 3,
   .storeMsg (ascii "a.2") [] [] 4, .storeMsg (ascii "a.1") [] [] 5, .storeMsg (ascii "b") [] [] 6,
   .removeMsg 1]

theorem load_next_and_prev_wild :
    ∃ ms tree, Reached wildOps ms tree ∧ Consistent ms ∧ Spans tree ms.fss ∧
      ms.shouldLinearScan (ascii "a.*") true 2 = false ∧ TreeExact ms tree (ascii "a.*") ∧
      (((∃ fuel r, ms.loadNextMsg tree (ascii "a.*") true 2 fuel = some r ∧
          IsNext ms (ascii "a.*") 2 r.2) ∧
        IsPrev ms (ascii "a.*") 2 (ms.loadPrevMsg (ascii "a.*") true 2)) ↔
        ScanEnds ms (ascii "a.*") 2) := by
  obtain ⟨ms, tree, there, consistent, spans, indexed, tree_exact⟩ :=
    reached wildOps (P := fun ms tree =>
      ms.shouldLinearScan (ascii "a.*") true 2 = false ∧ TreeExact ms tree (ascii "a.*"))
      (by decide +kernel) (by unfold TreeExact; decide +kernel)
  exact ⟨ms, tree, there, consistent, spans, indexed, tree_exact,
    load_next_and_prev_iff consistent.toIntact consistent.word spans tree_exact (by decide) 2⟩

def MemStore.loadNextMsgMulti (ms : MemStore) (sl : Gsl.GenericSublist Unit) (start fuel : Nat) :
    Option (Option StoreMsg × Nat) :=
  let start := if start < ms.firstSeq then ms.firstSeq else start
  if ms.lastSeq < start ∨ ms.stateMsgs = 0 then some (ms.loaded none)
  else (scanMsgs ms.msgs sl.hasInterest start ms.lastSeq fuel).map ms.loaded

def oneFilter : List (Gsl.Op Unit) := [.insert ⟨ascii "a.2", by decide⟩ ()]

end LinearNats.Store
