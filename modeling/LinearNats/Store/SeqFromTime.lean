import LinearNats.Store.Runs

/-! The first sequence from a time on: a binary search over sequences with holes, after shortcuts
at both ends. A hole moves the probe to the right, while the interval is cut at its middle. -/
namespace LinearNats.Store
open Server Scan Option

namespace MemStore

/-- The binary search between `fseq` and `lseq`, with the best answer so far. The loop over a hole is
a scan up to `lseq`, which has an end since `lseq` is not 2^64 - 1. -/
def searchTime (msgs : List StoreMsg) (ts : Int) : Nat → Nat → Nat → Nat → Nat
  | 0, _, _, seq => seq
  | fuel + 1, fseq, lseq, seq =>
    if lseq < fseq then seq
    else
      let mid := fseq + (lseq - fseq) / 2
      match (firstIn (stored msgs) mid lseq).bind (load msgs) with
      | none => searchTime msgs ts fuel fseq (mid - 1) seq
      | some msg =>
        if ts ≤ msg.ts then
          if mid = fseq then msg.seq else searchTime msgs ts fuel fseq (mid - 1) msg.seq
        else searchTime msgs ts fuel (u64 (msg.seq + 1)) lseq seq

/-- `none` is the panic on a first sequence that is not stored. -/
def getSeqFromTime (ms : MemStore) (ts : Int) : Option Nat :=
  if ms.msgs.length = 0 then some (u64 (ms.lastSeq + 1))
  else
    match load ms.msgs ms.firstSeq with
    | none => none
    | some fmsg =>
      if ts ≤ fmsg.ts then some ms.firstSeq
      else
        -- The last sequence may be deleted, since it does not go backwards.
        match (lastIn (stored ms.msgs) (ms.firstSeq + 1) ms.lastSeq).bind (load ms.msgs) with
        | none => some (u64 (ms.lastSeq + 1))
        | some lmsg =>
          if ts = lmsg.ts then some lmsg.seq
          else if lmsg.ts < ts then some (u64 (ms.lastSeq + 1))
          else some (searchTime ms.msgs ts (ms.lastSeq + 1 - ms.firstSeq) ms.firstSeq ms.lastSeq
            (u64 (ms.lastSeq + 1)))

end MemStore

def Chronological (msgs : List StoreMsg) : Prop :=
  ∀ a ∈ msgs, ∀ b ∈ msgs, a.seq ≤ b.seq → a.ts ≤ b.ts

/-- The smallest stored sequence from a time on, or the one after the last. -/
def FirstSince (ms : MemStore) (ts : Int) (seq : Nat) : Prop :=
  IsLeast {n | ∃ sm ∈ ms.msgs, sm.seq = n ∧ ts ≤ sm.ts} seq ∨
    (∀ sm ∈ ms.msgs, sm.ts < ts) ∧ seq = ms.lastSeq + 1

/-- The last message was stored at this time, as one before it that is not the first. -/
def LastTied (ms : MemStore) (ts : Int) : Prop :=
  ∃ earlier ∈ ms.msgs, ∃ last ∈ ms.msgs, earlier.seq < last.seq ∧ earlier.ts = ts ∧ last.ts = ts ∧
    (∀ sm ∈ ms.msgs, sm.seq ≤ last.seq) ∧ ∀ sm ∈ ms.msgs, sm.seq = ms.firstSeq → sm.ts < ts

variable {msgs : List StoreMsg}

theorem probe_some {lo hi : Nat} {msg : StoreMsg}
    (found : (firstIn (stored msgs) lo hi).bind (load msgs) = some msg) :
    msg ∈ msgs ∧ lo ≤ msg.seq ∧ msg.seq ≤ hi ∧
      ∀ sm ∈ msgs, lo ≤ sm.seq → sm.seq ≤ hi → msg.seq ≤ sm.seq := by
  obtain ⟨n, first, loaded⟩ := bind_eq_some_iff.mp found
  obtain ⟨inside, same⟩ := load_mem loaded
  obtain ⟨low, high, _, least⟩ := firstIn_some first
  rw [same]
  exact ⟨inside, low, high, fun sm there above below =>
    least sm.seq above below (stored_iff.mpr ⟨sm, there, rfl⟩)⟩

theorem scan_none {scan : Option Nat} (good : ∀ n, scan = some n → stored msgs n = true)
    (absent : scan.bind (load msgs) = none) : scan = none := by
  cases found : scan with
  | none => rfl
  | some n =>
    have there := good n found
    rw [found, bind_some] at absent
    rw [stored, absent] at there
    cases there

theorem probe_none {lo hi : Nat} (absent : (firstIn (stored msgs) lo hi).bind (load msgs) = none) :
    ∀ sm ∈ msgs, lo ≤ sm.seq → hi < sm.seq := by
  intro sm inside low
  by_contra high
  have first := scan_none (fun n found => (firstIn_some found).2.2.1) absent
  have gone := firstIn_none.mp first sm.seq low (le_of_not_gt high)
  rw [stored_iff.mpr ⟨sm, inside, rfl⟩] at gone
  cases gone

/-- What the search knows: everything below the interval is too early, and nothing above it comes
before the answer so far. -/
structure Searching (ms : MemStore) (ts : Int) (fseq lseq seq : Nat) : Prop where
  positive : 0 < fseq
  early : ∀ sm ∈ ms.msgs, sm.seq < fseq → sm.ts < ts
  answer : ∀ sm ∈ ms.msgs, lseq < sm.seq → seq ≤ sm.seq
  real : (∃ sm ∈ ms.msgs, sm.seq = seq ∧ ts ≤ sm.ts) ∨ seq = ms.lastSeq + 1

namespace Searching

variable {ms : MemStore} {ts : Int} {fseq lseq seq : Nat} {msg : StoreMsg}

theorem finished (h : Searching ms ts fseq lseq seq) (consistent : Consistent ms)
    (closed : lseq < fseq) : FirstSince ms ts seq := by
  have least : ∀ sm ∈ ms.msgs, ts ≤ sm.ts → seq ≤ sm.seq := by
    intro sm inside late
    apply h.answer sm inside
    by_contra below
    have := h.early sm inside (by omega)
    omega
  rcases h.real with stored_ | past
  · refine .inl ⟨stored_, ?_⟩
    rintro n ⟨sm, inside, rfl, late⟩
    exact least sm inside late
  refine .inr ⟨fun sm inside => ?_, past⟩
  by_contra late
  have := least sm inside (by omega)
  have := consistent.high sm inside
  omega

variable {mid : Nat}

theorem left_of_hole (h : Searching ms ts fseq lseq seq) (inside : fseq ≤ mid)
    (absent : (firstIn (stored ms.msgs) mid lseq).bind (load ms.msgs) = none) :
    Searching ms ts fseq (mid - 1) seq where
  positive := h.positive
  early := h.early
  answer sm there above := by
    have := lt_of_lt_of_le h.positive inside
    exact h.answer sm there (probe_none absent sm there (by omega))
  real := h.real

theorem left (h : Searching ms ts fseq lseq seq) (inside : fseq ≤ mid)
    (found : (firstIn (stored ms.msgs) mid lseq).bind (load ms.msgs) = some msg)
    (late : ts ≤ msg.ts) : Searching ms ts fseq (mid - 1) msg.seq where
  positive := h.positive
  early := h.early
  answer sm there above := by
    have := lt_of_lt_of_le h.positive inside
    obtain ⟨_, _, high, least⟩ := probe_some found
    by_cases below : sm.seq ≤ lseq
    · exact least sm there (by omega) below
    · omega
  real := .inl ⟨msg, (probe_some found).1, rfl, late⟩

theorem right (h : Searching ms ts fseq lseq seq) (chronological : Chronological ms.msgs)
    (found : (firstIn (stored ms.msgs) mid lseq).bind (load ms.msgs) = some msg)
    (soon : msg.ts < ts) : Searching ms ts (msg.seq + 1) lseq seq where
  positive := Nat.succ_pos _
  early sm there below := by
    have order := chronological sm there msg (probe_some found).1 (by omega)
    omega
  answer := h.answer
  real := h.real

/-- The search ends in as many rounds as there are sequences. -/
theorem searchTime (consistent : Consistent ms) (chronological : Chronological ms.msgs)
    (fuel : Nat) (h : Searching ms ts fseq lseq seq) (enough : lseq + 1 - fseq ≤ fuel) :
    FirstSince ms ts (MemStore.searchTime ms.msgs ts fuel fseq lseq seq) := by
  induction fuel generalizing fseq lseq seq with
  | zero => exact h.finished consistent (by omega)
  | succ fuel ih =>
    rw [MemStore.searchTime]
    split
    next closed => exact h.finished consistent closed
    have positive := h.positive
    generalize middle : fseq + (lseq - fseq) / 2 = mid
    have inside : fseq ≤ mid := by omega
    have below : mid ≤ lseq := by omega
    dsimp only
    cases found : (firstIn (stored ms.msgs) mid lseq).bind (load ms.msgs) with
    | none => exact ih (h.left_of_hole inside found) (by omega)
    | some msg =>
      dsimp only
      obtain ⟨there, low, high, _⟩ := probe_some found
      have next : u64 (msg.seq + 1) = msg.seq + 1 := by
        have := consistent.high msg there
        have := consistent.room
        exact u64_of_lt (by omega)
      rw [next]
      split
      next late =>
        have left := h.left inside found late
        split
        · exact left.finished consistent (by omega)
        · exact ih left (by omega)
      · exact ih (h.right chronological found (by omega)) (by omega)

end Searching

section

variable {ms : MemStore} {ts : Int}

theorem lastMsg_some {lmsg : StoreMsg} (h : Consistent ms)
    (found : (lastIn (stored ms.msgs) (ms.firstSeq + 1) ms.lastSeq).bind (load ms.msgs) =
      some lmsg) :
    lmsg ∈ ms.msgs ∧ ms.firstSeq < lmsg.seq ∧ ∀ sm ∈ ms.msgs, sm.seq ≤ lmsg.seq := by
  obtain ⟨n, last, loaded⟩ := bind_eq_some_iff.mp found
  obtain ⟨inside, same⟩ := load_mem loaded
  obtain ⟨low, _, _, greatest⟩ := lastIn_some last
  rw [same]
  refine ⟨inside, low, fun sm there => ?_⟩
  by_cases after : ms.firstSeq + 1 ≤ sm.seq
  · exact greatest sm.seq after (h.high sm there) (stored_iff.mpr ⟨sm, there, rfl⟩)
  · omega

theorem lastMsg_none (h : Consistent ms)
    (absent : (lastIn (stored ms.msgs) (ms.firstSeq + 1) ms.lastSeq).bind (load ms.msgs) = none) :
    ∀ sm ∈ ms.msgs, sm.seq = ms.firstSeq := by
  intro sm inside
  by_contra other
  have low := h.low sm inside
  have last := scan_none (fun n found => (lastIn_some found).2.2.1) absent
  have gone := lastIn_none.mp last sm.seq (by omega) (h.high sm inside)
  rw [stored_iff.mpr ⟨sm, inside, rfl⟩] at gone
  cases gone

variable {fmsg : StoreMsg}

theorem firstSince_first (h : Consistent ms) (first : load ms.msgs ms.firstSeq = some fmsg)
    (late : ts ≤ fmsg.ts) : FirstSince ms ts ms.firstSeq := by
  obtain ⟨inside, same⟩ := load_mem first
  refine .inl ⟨⟨fmsg, inside, same, late⟩, ?_⟩
  rintro n ⟨sm, there, rfl, _⟩
  exact h.low sm there

/-- The time of the last message: right if no other message but the first may have it. -/
theorem firstSince_last {lmsg : StoreMsg} (first : load ms.msgs ms.firstSeq = some fmsg)
    (after : fmsg.ts < ts) (inside : lmsg ∈ ms.msgs) (last : ∀ sm ∈ ms.msgs, sm.seq ≤ lmsg.seq)
    (chronological : Chronological ms.msgs) (same : ts = lmsg.ts) :
    FirstSince ms ts lmsg.seq ↔ ¬ LastTied ms ts := by
  constructor
  · rintro answer ⟨earlier, there, final, there', before, tie, _, greatest, _⟩
    have below : earlier.seq < lmsg.seq := lt_of_lt_of_le before (last final there')
    rcases answer with least | ⟨none_, _⟩
    · have := least.2 ⟨earlier, there, rfl, Int.le_of_eq tie.symm⟩
      omega
    · have := none_ earlier there
      omega
  · intro untied
    refine .inl ⟨⟨lmsg, inside, rfl, Int.le_of_eq same⟩, ?_⟩
    rintro n ⟨sm, there, rfl, late⟩
    by_contra before
    have order := chronological sm there lmsg inside (by omega)
    refine untied ⟨sm, there, lmsg, inside, by omega, by omega, same.symm, last, ?_⟩
    intro other there' at_first
    have loaded := load_mem first
    have earliest := chronological other there' fmsg loaded.1 (by omega)
    omega

theorem untied_of_first (first : load ms.msgs ms.firstSeq = some fmsg) (late : ts ≤ fmsg.ts) :
    ¬ LastTied ms ts := by
  rintro ⟨_, _, _, _, _, _, _, _, before⟩
  have := before fmsg (load_mem first).1 (load_mem first).2
  omega

end

def tiedOps : List Op :=
  [.storeMsg (ascii "a") [] [] 10, .storeMsg (ascii "a") [] [] 20, .storeMsg (ascii "a") [] [] 30,
   .storeMsg (ascii "a") [] [] 30, .removeMsg 2, .skipMsg 0]

end LinearNats.Store
