import LinearNats.Raft.Calm
import LinearNats.Raft.World

/-! The apply queue of a node: what is pushed to it by entries of a leader, by a quorum, and by the
replay after a pause, which gives up the lock after each entry. -/
namespace LinearNats.Raft
open List Table

/-! ### Loading from the write-ahead log -/

namespace Wal

variable {w : Wal} {i : Nat} {ae : AppendEntry}

theorem load_ok_iff : w.load i = .ok ae ↔ w.base < i ∧ w.entries[i - w.base - 1]? = some ae := by
  rw [load]
  split
  · exact iff_of_false (fun same => by cases same) (fun both => by omega)
  next low =>
  cases w.entries[i - w.base - 1]? with
  | none => exact iff_of_false (fun same => by cases same) (fun both => by cases both.2)
  | some found => simp [Nat.lt_of_not_le low]

theorem load_le_last (found : w.load i = .ok ae) : i ≤ w.last := by
  obtain ⟨above, entry⟩ := load_ok_iff.mp found
  have inside := (List.getElem?_eq_some_iff.mp entry).1
  rw [last]
  omega

theorem load_notFound (missing : w.load i = .error .notFound) : i ≤ w.base := by
  rw [load] at missing
  split at missing
  next low => exact low
  · split at missing <;> cases missing

theorem last_store (w : Wal) (ae : AppendEntry) : (w.store ae).last = w.last + 1 := by
  simp [store, last, Nat.add_assoc]

theorem load_store {stored : AppendEntry} (found : (w.store stored).load i = .ok ae) :
    w.load i = .ok ae ∨ (i = w.last + 1 ∧ ae = stored) := by
  obtain ⟨above, entry⟩ := load_ok_iff.mp found
  have low : w.base < i := above
  have at_ : (w.entries ++ [stored])[i - w.base - 1]? = some ae := entry
  rw [getElem?_append] at at_
  split at at_
  · exact .inl (load_ok_iff.mpr ⟨low, at_⟩)
  next past =>
  have one := (List.getElem?_eq_some_iff.mp at_).1
  rw [length_singleton] at one
  refine .inr ⟨by rw [last]; omega, ?_⟩
  have first : i - w.base - 1 - w.entries.length = 0 := by omega
  rw [first] at at_
  exact (Option.some.inj at_).symm

theorem last_truncate {index : Nat} (low : w.base ≤ index) (high : index ≤ w.last) :
    (w.truncate index).last = index := by
  rw [last] at high
  rw [truncate]
  split
  next zero => rw [zero]; rfl
  · simp only [last, length_take]
    omega

theorem base_truncate (w : Wal) (index : Nat) : (w.truncate index).base ≤ w.base := by
  rw [truncate]
  split
  · exact Nat.zero_le _
  · exact Nat.le_refl _

theorem load_truncate {index : Nat} (found : (w.truncate index).load i = .ok ae) :
    w.load i = .ok ae := by
  rw [truncate] at found
  split at found
  · have past := load_le_last found
    have above := (load_ok_iff.mp found).1
    simp only [last, length_nil] at past above
    omega
  obtain ⟨above, entry⟩ := load_ok_iff.mp found
  have taken : (w.entries.take (index - w.base))[i - w.base - 1]? = some ae := entry
  rw [getElem?_take] at taken
  split at taken
  · exact load_ok_iff.mpr ⟨above, taken⟩
  · cases taken

theorem base_compact (w : Wal) (k : Nat) : (w.compact k).base = max w.base k := by
  rw [compact]
  split
  · omega
  · show k = max w.base k
    omega

theorem last_compact (w : Wal) (k : Nat) : (w.compact k).last = max w.last k := by
  rw [compact]
  split
  · rw [last]
    omega
  · simp only [last, length_drop]
    omega

theorem load_compact {k : Nat} (found : (w.compact k).load i = .ok ae) : w.load i = .ok ae := by
  rw [compact] at found
  split at found
  · exact found
  obtain ⟨above, entry⟩ := load_ok_iff.mp found
  simp only [getElem?_drop] at above entry
  refine load_ok_iff.mpr ⟨by omega, ?_⟩
  rw [← entry]
  congr 1
  omega

end Wal

namespace Node

/-! ### Pausing and resuming -/

/-- `PauseApply` once it holds the lock. Its test for a leader before that only drops the call. -/
def pauseApplyLocked (n : Node) : Node :=
  let n := if n.state ≠ .follower then n.stepdownLocked none else n
  { n with paused := true, hcommit := max n.hcommit n.commit }

def endResume (n : Node) : Node := { n with paused := false, hcommit := 0 }

/-- What `ResumeApply` does between two releases of the lock, at `index` of its loop: the next
index, if it goes on. -/
def resumeAt (n : Node) (index : Nat) : Node × Option Nat :=
  if index ≤ n.hcommit then
    match n.applyCommit index with
    | (n, none) => (n, some (index + 1))
    | (n, some _) => (n.endResume, none)
  else (n.endResume, none)

def resumeApply (n : Node) : Node × Option Nat :=
  if ¬ n.paused then (n, none)
  else if n.commit < n.hcommit then n.resumeAt (n.commit + 1)
  else (n.endResume, none)

/-- The loop after it has taken the lock again. -/
def resumeNext (n : Node) (index : Nat) : Node × Option Nat :=
  if n.state = .closed then (n, none) else n.resumeAt index

end Node

/-- A node with the calls of `ResumeApply` that have released the lock, each at its next index. -/
structure Applier where
  node : Node
  resumes : List Nat

inductive ApplyOp
  | append (inc : Node.Incoming)
  | send (entries : List Entry) (checkLeader : Bool)
  | tryCommit (index : Nat)
  | pauseApply
  | resumeApply
  | resumeNext (k : Nat)
  | processed (index applied : Nat)
  | installSnapshot (data : String)
  deriving DecidableEq

namespace Applier

def step (a : Applier) : ApplyOp → Applier
  | .append inc => { a with node := (a.node.processAppendEntry inc).1 }
  | .send entries checkLeader =>
    { a with node := (a.node.sendAppendEntryLocked entries checkLeader).1 }
  | .tryCommit index => { a with node := (a.node.tryCommit index).1 }
  | .pauseApply => { a with node := a.node.pauseApplyLocked }
  | .resumeApply =>
    let (n, next) := a.node.resumeApply
    ⟨n, a.resumes ++ next.toList⟩
  | .resumeNext k =>
    match a.resumes[k]? with
    | none => a
    | some index =>
      let (n, next) := a.node.resumeNext index
      ⟨n, a.resumes.eraseIdx k ++ next.toList⟩
  | .processed index applied => { a with node := a.node.markProcessed index applied }
  | .installSnapshot data => { a with node := a.node.takeSnapshot data }

end Applier

/-! ### What is pushed -/

def Entry.isSnapshot : Entry → Bool
  | .snapshot _ => true
  | _ => false

def CommittedEntry.carriesSnapshot (ce : CommittedEntry) : Bool := ce.entries.any Entry.isSnapshot

/-- Pushed in this order on a queue that has got to `start`, the entries take it to `stop`. -/
def Follows (start : Nat) : List CommittedEntry → Nat → Prop
  | [], stop => stop = start
  | ce :: rest, stop =>
    start < ce.index ∧ (ce.carriesSnapshot ∨ ce.index = start + 1) ∧ Follows ce.index rest stop

variable {start stop : Nat} {new : List CommittedEntry}

theorem Follows.le (follows : Follows start new stop) : start ≤ stop := by
  induction new generalizing start with
  | nil => exact Nat.le_of_eq follows.symm
  | cons ce rest ih => exact Nat.le_trans (Nat.le_of_lt follows.1) (ih follows.2.2)

theorem Follows.append {mid : Nat} {more : List CommittedEntry} (first : Follows start new mid)
    (second : Follows mid more stop) : Follows start (new ++ more) stop := by
  induction new generalizing start with
  | nil =>
    have same : mid = start := first
    rw [← same]
    exact second
  | cons ce rest ih => exact ⟨first.1, first.2.1, ih first.2.2⟩

theorem Follows.increasing (follows : Follows start new stop) :
    (start :: new.map CommittedEntry.index).Pairwise (· < ·) := by
  induction new generalizing start with
  | nil => exact pairwise_singleton _ _
  | cons ce rest ih =>
    have tail := ih follows.2.2
    exact tail.cons_cons_of_trans follows.1

/-- An entry at `index` that is a snapshot by itself does not name a commit index past it. -/
def AppendEntry.Modest (ae : AppendEntry) (index : Nat) : Prop :=
  ae.entries.length = 1 → ae.entries.any Entry.isSnapshot → ae.commit ≤ index

instance (ae : AppendEntry) (index : Nat) : Decidable (ae.Modest index) :=
  inferInstanceAs (Decidable (_ → _ → _))

namespace Node

structure Ordered (n : Node) : Prop where
  applied : n.applied ≤ n.processed
  processed : n.processed ≤ n.commit
  commit : n.commit ≤ n.pindex
  stored : n.pindex ≤ n.wal.last
  base : n.wal.base ≤ n.commit
  papplied : n.papplied ≤ n.commit
  log : ∀ i ae, n.wal.load i = .ok ae → ae.pindex + 1 = i ∧ ae.Modest i
  cache : ∀ i ae, Table.get n.pae i = some ae → ae.Modest i

def orderPart (n : Node) : Wal × Nat × Nat × Nat × Nat × Nat × List (Nat × AppendEntry) :=
  (n.wal, n.pindex, n.commit, n.processed, n.applied, n.papplied, n.pae)

variable {m : Node} {ae : AppendEntry} {index : Nat}

theorem Ordered.of_part {n : Node} (ordered : n.Ordered) (same : m.orderPart = n.orderPart) :
    m.Ordered := by
  obtain ⟨⟩ := m
  simp only [orderPart, Prod.mk.injEq] at same
  obtain ⟨rfl, rfl, rfl, rfl, rfl, rfl, rfl⟩ := same
  exact { ordered with }

theorem Calm.orderPart {n : Node} (calm : Calm n m) : m.orderPart = n.orderPart := by
  simp only [Node.orderPart, calm.wal, calm.pindex, calm.commit, calm.processed, calm.applied,
    calm.papplied, calm.pae]

/-- From `n` to `m`, the queue only grew by what comes next. -/
structure Advances (n m : Node) : Prop where
  ordered : m.Ordered
  pushed : ∃ new, m.pushes = n.pushes ++ new ∧ Follows n.commit new m.commit

section

variable {n m k : Node}

theorem Advances.commit_le (advances : Advances n m) : n.commit ≤ m.commit :=
  advances.pushed.elim (fun _ both => both.2.le)

theorem Advances.trans (first : Advances n m) (second : Advances m k) : Advances n k := by
  obtain ⟨new, same, follows⟩ := first.pushed
  obtain ⟨more, same', follows'⟩ := second.pushed
  refine ⟨second.ordered, new ++ more, ?_, follows.append follows'⟩
  rw [same', same, append_assoc]

theorem Advances.of_quiet (ordered : m.Ordered) (commit : m.commit = n.commit)
    (pushes : m.pushes = n.pushes) : Advances n m :=
  ⟨ordered, [], by rw [pushes, append_nil], commit⟩

theorem Advances.of_calm (ordered : n.Ordered) (calm : Calm n m) : Advances n m :=
  .of_quiet (ordered.of_part calm.orderPart) calm.commit calm.pushes

end

/-! ### Committing one entry -/

structure Settles (n m : Node) : Prop where
  ordered : m.Ordered
  commit : m.commit = n.commit
  pindex : m.pindex = n.pindex
  last : m.wal.last = n.wal.last
  pae : m.pae = n.pae
  apply : m.apply = n.apply

theorem Settles.trans {n k : Node} (first : Settles n m) (second : Settles m k) : Settles n k :=
  ⟨second.ordered, second.commit.trans first.commit, second.pindex.trans first.pindex,
    second.last.trans first.last, second.pae.trans first.pae, second.apply.trans first.apply⟩

theorem Settles.of_part {n : Node} (ordered : n.Ordered) (same : m.orderPart = n.orderPart)
    (apply : m.apply = n.apply) : Settles n m := by
  refine ⟨ordered.of_part same, ?_, ?_, ?_, ?_, apply⟩
  all_goals simp only [orderPart, Prod.mk.injEq] at same
  · exact same.2.2.1
  · exact same.2.1
  · rw [same.1]
  · exact same.2.2.2.2.2.2

theorem Settles.advances {n : Node} (settles : Settles n m) : Advances n m :=
  .of_quiet settles.ordered settles.commit (by rw [pushes, settles.apply, ← pushes])

theorem installSnapshot_settles {n : Node} (ordered : n.Ordered) {snap : Snapshot}
    (low : snap.lastIndex ≤ n.commit) : Settles n (n.installSnapshot snap) := by
  have inside : snap.lastIndex ≤ n.wal.last :=
    Nat.le_trans low (Nat.le_trans ordered.commit ordered.stored)
  have last : (n.wal.compact snap.lastIndex).last = n.wal.last := by
    rw [Wal.last_compact]
    omega
  refine ⟨⟨ordered.applied, ordered.processed, ordered.commit, ?_, ?_, low, ?_, ordered.cache⟩,
    rfl, rfl, last, rfl, rfl⟩
  · exact last ▸ ordered.stored
  · show (n.wal.compact snap.lastIndex).base ≤ n.commit
    rw [Wal.base_compact]
    exact Nat.max_le.mpr ⟨ordered.base, low⟩
  · intro i ae found
    exact ordered.log i ae (Wal.load_compact found)

theorem removePeer_orderPart (n : Node) (peer : Id) :
    (n.removePeer peer).orderPart = n.orderPart ∧ (n.removePeer peer).apply = n.apply := by
  rw [removePeer]
  split <;> exact ⟨rfl, rfl⟩

theorem applyEntries_settles {n : Node} (ordered : n.Ordered) (modest : ae.Modest n.commit)
    (committed : List Entry) {entries : List Entry} (part : ∀ e ∈ entries, e ∈ ae.entries) :
    Settles n (applyEntries ae n committed entries).1 := by
  induction entries generalizing n committed with
  | nil => exact .of_part ordered rfl rfl
  | cons e rest ih =>
    have tail : ∀ e ∈ rest, e ∈ ae.entries := fun e mem => part e (mem_cons_of_mem _ mem)
    -- Each entry settles the node it meets, and the rest goes on from there.
    have next {m : Node} (settles : Settles n m) (committed : List Entry) :
        Settles n (applyEntries ae m committed rest).1 :=
      settles.trans (ih settles.ordered (by rw [settles.commit]; exact modest) committed tail)
    cases e with
    | normal data => exact ih ordered modest _ tail
    | oldSnapshot data => exact ih ordered modest _ tail
    | snapshot data =>
      refine next ?_ _
      split
      next alone =>
        refine installSnapshot_settles ordered (modest alone.1 ?_)
        exact any_eq_true.mpr ⟨_, part _ mem_cons_self, rfl⟩
      · exact .of_part ordered rfl rfl
    | peerState ps =>
      refine next ?_ _
      cases ps with
      | none => exact .of_part ordered rfl rfl
      | some ps => dsimp only; split <;> exact .of_part ordered rfl rfl
    | addPeer peer =>
      exact next (m := { n.addPeer peer with membChangeIndex := 0 }) (.of_part ordered rfl rfl) _
    | removePeer peer =>
      have removed : Settles n { n.removePeer peer with membChangeIndex := 0 } :=
        .of_part ordered (removePeer_orderPart n peer).1 (removePeer_orderPart n peer).2
      rw [applyEntries]
      split
      · exact removed
      · exact next removed _
    | leaderTransfer peer => exact ih ordered modest _ tail
    | catchup => exact ih ordered modest _ tail

theorem pushes_push (n : Node) (ce : CommittedEntry) (real : ce.index ≠ 0) :
    { n with apply := n.apply ++ [some ce] }.pushes = n.pushes ++ [ce] := by
  have one : (some ce).filter (fun ce => decide (ce.index ≠ 0)) = some ce :=
    Option.filter_eq_some_iff.mpr ⟨rfl, decide_eq_true real⟩
  simp only [pushes, filterMap_append, filterMap_cons, one, filterMap_nil]

def Nowhere (n : Node) (index : Nat) : Prop :=
  Table.get n.pae index = none ∧ n.wal.last < index

instance (n : Node) (index : Nat) : Decidable (n.Nowhere index) :=
  inferInstanceAs (Decidable (_ ∧ _))

/-- What committing leaves behind: the queue advanced, the log as long as it was, and nothing new
in the cache. -/
structure Commits (n m : Node) : Prop where
  advances : Advances n m
  pindex : m.pindex = n.pindex
  last : m.wal.last = n.wal.last
  cache : ∀ i, Table.get n.pae i = none → Table.get m.pae i = none

section

variable {n m k : Node}

theorem Commits.refl (ordered : n.Ordered) : Commits n n :=
  ⟨.of_quiet ordered rfl rfl, rfl, rfl, fun _ none_ => none_⟩

theorem Commits.trans (first : Commits n m) (second : Commits m k) : Commits n k :=
  ⟨first.advances.trans second.advances, second.pindex.trans first.pindex,
    second.last.trans first.last, fun i none_ => second.cache i (first.cache i none_)⟩

theorem Nowhere.commits {index : Nat} (nowhere : n.Nowhere index) (commits : Commits n m) :
    m.Nowhere index :=
  ⟨commits.cache index nowhere.1, by rw [commits.last]; exact nowhere.2⟩

end

theorem commitEntry_commits {n : Node} (ordered : n.Ordered) (inside : n.commit + 1 ≤ n.pindex)
    (modest : ae.Modest (n.commit + 1)) :
    Commits n (n.commitEntry (n.commit + 1) ae).1 ∧
      (n.commitEntry (n.commit + 1) ae).1.commit = n.commit + 1 := by
  have raised : { n with commit := n.commit + 1 }.Ordered :=
    ⟨ordered.applied, Nat.le_succ_of_le ordered.processed, inside, ordered.stored,
      Nat.le_succ_of_le ordered.base, Nat.le_succ_of_le ordered.papplied, ordered.log,
      ordered.cache⟩
  have settles := @applyEntries_settles ae _ raised modest [] ae.entries (fun _ mem => mem)
  rw [commitEntry]
  rcases applied : applyEntries ae { n with commit := n.commit + 1 } [] ae.entries with
    ⟨m, committed, removed⟩
  rw [applied] at settles
  have pushes := pushes_push m ⟨n.commit + 1, committed⟩ (Nat.succ_ne_zero _)
  have before : m.pushes = n.pushes := by
    rw [Node.pushes, settles.apply]
    rfl
  rw [before] at pushes
  have follows : Follows n.commit [⟨n.commit + 1, committed⟩] m.commit :=
    ⟨Nat.lt_succ_self _, .inr rfl, settles.commit⟩
  refine ⟨⟨⟨settles.ordered.of_part rfl, _, pushes, follows⟩, settles.pindex, settles.last, ?_⟩,
    settles.commit⟩
  intro i none_
  show Table.get m.pae i = none
  rw [settles.pae]
  exact none_

theorem Commits.erase {n : Node} (commits : Commits n m) (index : Nat) :
    Commits n { m with pae := Table.erase m.pae index } := by
  obtain ⟨⟨ordered, pushed⟩, pindex, last, cache⟩ := commits
  refine ⟨⟨{ ordered with cache := all_erase ordered.cache index }, pushed⟩, pindex, last, ?_⟩
  intro i none_
  show Table.get (Table.erase m.pae index) i = none
  rw [get_erase, cache i none_, ite_self]

section

variable {n : Node} (ordered : n.Ordered)

include ordered

theorem applyCommit_commits (next : index ≤ n.commit + 1)
    (known : index ≤ n.pindex ∨ n.Nowhere index) :
    Commits n (n.applyCommit index).1 ∧
      ((n.applyCommit index).2 = none → index ≤ (n.applyCommit index).1.commit) := by
  rw [applyCommit]
  by_cases closed : n.state = .closed
  · rw [if_pos closed]
    exact ⟨.refl ordered, fun ended => by cases ended⟩
  by_cases old : index ≤ n.commit
  · rw [if_neg closed, if_pos old]
    exact ⟨.refl ordered, fun _ => old⟩
  rw [if_neg closed, if_neg old]
  obtain rfl : index = n.commit + 1 := by omega
  generalize forgot : (if n.state = .leader then
    { n with acks := n.acks.filter (fun a => decide (a.1 ≠ n.commit + 1)) } else n) = m
  have same : m.orderPart = n.orderPart ∧ m.pushes = n.pushes := by
    rw [← forgot]
    split <;> exact ⟨rfl, rfl⟩
  have part := same.1
  simp only [orderPart, Prod.mk.injEq] at part
  obtain ⟨wal, pindex, commit, -, -, -, pae⟩ := part
  have start : Commits n m := by
    refine ⟨.of_quiet (ordered.of_part same.1) commit same.2, pindex, by rw [wal], ?_⟩
    intro i none_
    rw [pae]
    exact none_
  rw [← commit, ← pindex, Nowhere, ← pae, ← wal] at known
  rw [← commit]
  have order := start.advances.ordered
  dsimp only
  cases cached : Table.get m.pae (m.commit + 1) with
  | some ae =>
    rw [cached] at known
    have inside : m.commit + 1 ≤ m.pindex := known.resolve_right (fun none_ => by cases none_.1)
    obtain ⟨commits, reached⟩ := commitEntry_commits order inside (order.cache _ ae cached)
    exact ⟨(start.trans commits).erase _, fun _ => Nat.le_of_eq reached.symm⟩
  | none =>
    have fresh : ¬ m.commit + 1 < m.papplied := by
      have := order.papplied
      omega
    rw [if_neg fresh, loadEntry]
    rcases loaded : m.wal.load (m.commit + 1) with err | ae
    · cases err with
      | eof => exact ⟨start, fun ended => by cases ended⟩
      | notFound =>
        have low := Wal.load_notFound loaded
        have := order.base
        omega
    · have last := Wal.load_le_last loaded
      have inside : m.commit + 1 ≤ m.pindex := known.resolve_right (fun none_ => by omega)
      obtain ⟨commits, reached⟩ := commitEntry_commits order inside (order.log _ ae loaded).2
      exact ⟨start.trans commits, fun _ => Nat.le_of_eq reached.symm⟩

theorem Ordered.known_next (next : index ≤ n.commit + 1)
    (known : index ≤ n.pindex ∨ n.Nowhere (n.pindex + 1)) : index ≤ n.pindex ∨ n.Nowhere index := by
  have := ordered.commit
  by_cases low : index ≤ n.pindex
  · exact .inl low
  · obtain rfl : index = n.pindex + 1 := by omega
    exact known

/-- Through `target`, which the log reaches or after whose end there is nothing to be found. -/
theorem applyCommits_commits {count : Nat} (next : index ≤ n.commit + 1)
    (known : index + count ≤ n.pindex + 1 ∨ n.Nowhere (n.pindex + 1)) :
    Commits n (n.applyCommits index count).1 := by
  induction count generalizing n index with
  | zero => exact .refl ordered
  | succ count ih =>
    have here := ordered.known_next next (known.imp_left (fun inside => by omega))
    obtain ⟨commits, reached⟩ := applyCommit_commits ordered next here
    rw [applyCommits]
    rcases result : n.applyCommit index with ⟨m, _ | err⟩
    · rw [result] at commits reached
      refine commits.trans (ih commits.advances.ordered (Nat.succ_le_succ (reached rfl)) ?_)
      rw [commits.pindex]
      rcases known with inside | nowhere
      · exact .inl (by omega)
      · exact .inr (nowhere.commits commits)
    · rw [result] at commits
      exact commits

theorem applyThrough_commits {target : Nat} (known : target ≤ n.pindex ∨ n.Nowhere (n.pindex + 1)) :
    Commits n (n.applyThrough target).1 := by
  refine applyCommits_commits ordered (Nat.le_refl _) ?_
  have := ordered.commit
  rcases known with inside | nowhere
  · exact .inl (by omega)
  · exact .inr nowhere

theorem tryCommit_commits (known : index ≤ n.pindex ∨ n.Nowhere (n.pindex + 1)) :
    Commits n (n.tryCommit index).1 := by
  rw [tryCommit]
  split
  · exact .refl ordered
  · exact applyThrough_commits ordered known

end

/-! ### Truncating and storing -/

theorem truncateWAL_advances {n : Node} (ordered : n.Ordered) (term : Nat) (low : n.commit ≤ index)
    (high : index ≤ n.pindex) :
    Advances n (n.truncateWAL term index) ∧ (n.truncateWAL term index).wal.last = index := by
  have commit : min n.commit index = n.commit := Nat.min_eq_left low
  have last : (n.wal.truncate index).last = index :=
    Wal.last_truncate (Nat.le_trans ordered.base low) (Nat.le_trans high ordered.stored)
  refine ⟨.of_quiet ⟨?_, ?_, ?_, ?_, ?_, ?_, ?_, ordered.cache⟩ commit rfl, last⟩
  · exact Nat.min_le_right _ _
  · exact Nat.min_le_right _ _
  · exact Nat.min_le_right _ _
  · exact Nat.le_of_eq last.symm
  · show (n.wal.truncate index).base ≤ min n.commit index
    rw [commit]
    exact Nat.le_trans (Wal.base_truncate _ _) ordered.base
  · show n.papplied ≤ min n.commit index
    rw [commit]
    exact ordered.papplied
  · intro i ae found
    exact ordered.log i ae (Wal.load_truncate found)

theorem resetWAL_advances {n : Node} (ordered : n.Ordered) (none_ : n.commit = 0) :
    Advances n n.resetWAL :=
  (truncateWAL_advances ordered 0 (Nat.le_of_eq none_) (Nat.zero_le _)).1

structure Aligned (n : Node) (ae : AppendEntry) (m : Node) : Prop where
  advances : Advances n m
  commit : m.commit = n.commit
  pindex : m.pindex = ae.pindex
  pae : m.pae = n.pae
  last : m.wal.last = n.wal.last ∧ m.pindex = n.pindex ∨ m.wal.last = m.pindex

section

variable {n : Node} (ordered : n.Ordered)

include ordered

theorem checkBelow_cases {inc : Incoming} (below : inc.ae.pindex ≤ n.pindex) :
    (∃ m, n.checkBelow inc = .ok m ∧ Aligned n inc.ae m) ∨
      ∃ m out, n.checkBelow inc = .error (m, out) ∧ (n.commit ≤ m.commit → Advances n m) := by
  have quiet : n.commit ≤ n.commit → Advances n n := fun _ => .of_quiet ordered rfl rfl
  have cancels {m : Node} (advances : Advances n m) :
      n.commit ≤ (m.settle false).1.commit → Advances n (m.settle false).1 := fun _ =>
    advances.trans (.of_calm advances.ordered (cancelCatchup_calm m))
  have resets : n.commit ≤ (n.resetWAL.settle false).1.commit →
      Advances n (n.resetWAL.settle false).1 := by
    intro keeps
    have commit : (n.resetWAL.settle false).1.commit = min n.commit 0 :=
      (cancelCatchup_calm n.resetWAL).commit
    exact cancels (resetWAL_advances ordered (by omega)) keeps
  rw [checkBelow]
  split
  · exact .inr ⟨n, [], rfl, quiet⟩
  have low : n.commit ≤ inc.ae.pindex := by omega
  have fits (term : Nat) : Aligned n inc.ae (n.truncateWAL term inc.ae.pindex) := by
    obtain ⟨advances, last⟩ := truncateWAL_advances ordered term low below
    exact ⟨advances, Nat.min_eq_left low, rfl, rfl, .inr last⟩
  rcases loaded : n.loadEntry inc.ae.pindex with err | eae
  · dsimp only
    split
    · exact .inr ⟨n, [], rfl, quiet⟩
    split
    · exact .inr ⟨_, _, rfl, cancels (fits _).advances⟩
    cases n.snap with
    | none => exact .inr ⟨_, _, rfl, resets⟩
    | some snap =>
      dsimp only
      split
      next at_ =>
        rw [at_.1]
        exact .inl ⟨_, rfl, fits _⟩
      · exact .inr ⟨_, _, rfl, resets⟩
  · dsimp only
    have numbered := (ordered.log _ eae loaded).1
    split
    · exact .inl ⟨_, rfl, fits _⟩
    split
    · exact .inr ⟨n, [], rfl, quiet⟩
    next above =>
      have advances := truncateWAL_advances ordered eae.pterm (Nat.le_of_not_lt above) (by omega)
      exact .inr ⟨_, _, rfl, cancels advances.1⟩

theorem pushSnapshot_advances (data : String) (ahead : n.pindex < ae.pindex)
    (part : m.orderPart = (n.wal.compact ae.pindex, ae.pindex, ae.pindex, n.processed, n.applied,
      ae.pindex, n.pae)) (pushes : m.pushes = n.pushes) :
    Advances n { m with apply := m.apply ++ [some ⟨m.commit, [.snapshot data]⟩] } := by
  have high : n.commit < ae.pindex := Nat.lt_of_le_of_lt ordered.commit ahead
  have order : m.Ordered := by
    obtain ⟨⟩ := m
    simp only [orderPart, Prod.mk.injEq] at part
    obtain ⟨rfl, rfl, rfl, rfl, rfl, rfl, rfl⟩ := part
    refine ⟨ordered.applied, Nat.le_trans ordered.processed (Nat.le_of_lt high), Nat.le_refl _, ?_, ?_,
      Nat.le_refl _, ?_, ordered.cache⟩
    · simp only [Wal.last_compact]
      exact Nat.le_max_right _ _
    · simp only [Wal.base_compact]
      exact Nat.max_le.mpr ⟨Nat.le_trans ordered.base (Nat.le_of_lt high), Nat.le_refl _⟩
    · intro i other found
      exact ordered.log i other (Wal.load_compact found)
  have commit : m.commit = ae.pindex := congrArg (·.2.2.1) part
  have pushed := pushes_push m ⟨m.commit, [.snapshot data]⟩ (by show m.commit ≠ 0; omega)
  rw [pushes] at pushed
  exact ⟨order.of_part rfl, _, pushed, by rw [commit]; exact high, .inl rfl, rfl⟩

/-- The snapshot is pushed, with a signal before or after it, and the log starts behind it. -/
theorem installLeaderSnapshot_advances (ahead : n.pindex < ae.pindex) :
    Advances n (n.installLeaderSnapshot ae) := by
  rw [installLeaderSnapshot.eq_def]
  split
  next data ps _ =>
    dsimp only
    generalize taken : (Node.installSnapshot _ _).resetInitializing = m
    have part : m.orderPart = (n.wal.compact ae.pindex, ae.pindex, ae.pindex, n.processed,
        n.applied, ae.pindex, n.pae) := by
      rw [← taken]
      rfl
    have pushes : m.pushes = n.pushes := by
      rw [← taken]
      rfl
    by_cases had : n.snap.isSome
    · rw [if_pos had, if_pos had]
      have pushed := pushSnapshot_advances ordered data ahead part pushes
      exact pushed.trans (.of_calm pushed.ordered (sendCatchupSignal_calm _))
    rw [if_neg had, if_neg had]
    have calm := sendCatchupSignal_calm m
    exact pushSnapshot_advances ordered data ahead (calm.orderPart.trans part)
      (calm.pushes.trans pushes)
  · exact .of_calm ordered (cancelCatchup_calm n)

theorem checkPrevious_cases (inc : Incoming) :
    (∃ m, n.checkPrevious inc = .ok m ∧ Aligned n inc.ae m) ∨
      ∃ m out, n.checkPrevious inc = .error (m, out) ∧ (n.commit ≤ m.commit → Advances n m) := by
  rw [checkPrevious]
  split
  next same =>
    exact .inl ⟨n, rfl, .of_quiet ordered rfl rfl, rfl, same.2.symm, rfl, .inl ⟨rfl, rfl⟩⟩
  split
  next below => exact checkBelow_cases ordered below
  next below =>
  split
  · exact .inr ⟨_, _, rfl, fun _ => installLeaderSnapshot_advances ordered (Nat.lt_of_not_le below)⟩
  · exact .inr ⟨_, _, rfl, fun _ => .of_calm ordered (createCatchup_calm n inc.ae)⟩

theorem storeToWAL_advances (modest : ae.Modest (ae.pindex + 1))
    (keeps : (n.storeToWAL ae).2 = false → n.commit ≤ (n.storeToWAL ae).1.commit) :
    Advances n (n.storeToWAL ae).1 ∧ (n.storeToWAL ae).1.pae = n.pae ∧
      ((n.storeToWAL ae).2 = true → (n.storeToWAL ae).1.pindex = ae.pindex + 1 ∧
        (n.storeToWAL ae).1.wal.last = ae.pindex + 1) := by
  rw [storeToWAL] at keeps ⊢
  by_cases failed : n.werr.isSome
  · rw [if_pos failed]
    exact ⟨.of_quiet ordered rfl rfl, rfl, fun stored => by cases stored⟩
  rw [if_neg failed] at keeps ⊢
  by_cases wrong : ae.pindex + 1 ≠ n.wal.last + 1
  · rw [if_pos wrong] at keeps ⊢
    have keeps := keeps rfl
    dsimp only at keeps ⊢
    generalize left : (if n.state = .leader then n.stepdownLocked none else n) = m at keeps ⊢
    have calm : Calm n m := by
      rw [← left]
      split
      · exact stepdownLocked_calm n none
      · exact .refl n
    have zero : m.resetWAL.cancelCatchup.commit = min m.commit 0 :=
      (cancelCatchup_calm m.resetWAL).commit
    have stepped := Advances.of_calm ordered calm
    have reset := resetWAL_advances stepped.ordered (by rw [calm.commit] at zero ⊢; omega)
    refine ⟨(stepped.trans reset).trans (.of_calm reset.ordered (cancelCatchup_calm _)), ?_,
      fun stored => by cases stored⟩
    exact (cancelCatchup_calm m.resetWAL).pae.trans calm.pae
  · rw [if_neg wrong]
    have last : n.wal.last = ae.pindex := by omega
    have stored : (n.wal.store ae).last = ae.pindex + 1 := by rw [Wal.last_store, last]
    refine ⟨.of_quiet ⟨ordered.applied, ordered.processed, ?_, ?_, ordered.base, ordered.papplied,
      ?_, ordered.cache⟩ rfl rfl, rfl, fun _ => ⟨by rw [last], stored⟩⟩
    · show n.commit ≤ n.wal.last + 1
      exact Nat.le_succ_of_le (Nat.le_trans ordered.commit ordered.stored)
    · exact Nat.le_of_eq (Wal.last_store n.wal ae).symm
    · intro i other found
      rcases Wal.load_store found with old | ⟨at_, rfl⟩
      · exact ordered.log i other old
      · rw [at_, last]
        exact ⟨rfl, modest⟩

end

theorem cachePendingEntry_eq (n : Node) (ae : AppendEntry) :
    ∃ pae, n.cachePendingEntry ae = { n with pae := pae } := by
  rw [cachePendingEntry]
  split
  · exact ⟨_, rfl⟩
  · exact ⟨_, rfl⟩

theorem cachePendingEntry_advances {n : Node} (ordered : n.Ordered) (modest : ae.Modest n.pindex) :
    Advances n (n.cachePendingEntry ae) ∧
      ∀ i, n.pindex < i → Table.get (n.cachePendingEntry ae).pae i = Table.get n.pae i := by
  rw [cachePendingEntry]
  split
  · refine ⟨.of_quiet { ordered with cache := all_set ordered.cache _ modest } rfl rfl, ?_⟩
    intro i above
    rw [get_set, if_neg (by omega)]
  · refine ⟨.of_quiet { ordered with cache := all_erase ordered.cache _ } rfl rfl, ?_⟩
    intro i above
    rw [get_erase, if_neg (by omega)]

namespace Incoming

def last (inc : Incoming) : Nat := inc.ae.pindex + if shouldStore inc.ae then 1 else 0

end Incoming

/-- An entry that a node can take. A replay hands in the next entry of the log, which fits its last
one. The commit index that an entry names is not past the end of the log it leads to; or nothing is
found there, because neither the cache nor a log that is still replayed holds more. -/
structure Takes (n : Node) (inc : Incoming) : Prop where
  replay : inc.sub = none → inc.ae.pterm = n.pterm ∧ n.wal.load (n.pindex + 1) = .ok inc.ae ∧
    shouldStore inc.ae
  modest : inc.ae.Modest (inc.ae.pindex + 1)
  known : inc.ae.commit ≤ inc.last ∨ Table.get n.pae (inc.last + 1) = none ∧
    if inc.sub = none then n.wal.last ≤ inc.last else n.wal.last = n.pindex

instance (n : Node) (inc : Incoming) : Decidable (n.Takes inc) :=
  decidable_of_iff (_ ∧ _ ∧ _)
    ⟨fun ⟨replay, modest, known⟩ => ⟨replay, modest, known⟩,
      fun takes => ⟨takes.replay, takes.modest, takes.known⟩⟩

theorem storeEntry_advances {n : Node} (ordered : n.Ordered) {inc : Incoming}
    (next : n.pindex = inc.ae.pindex) (modest : inc.ae.Modest (inc.ae.pindex + 1))
    (replay : inc.sub = none → n.pindex + 1 ≤ n.wal.last)
    (keeps : (n.storeEntry inc).2 = false → n.commit ≤ (n.storeEntry inc).1.commit) :
    Advances n (n.storeEntry inc).1 ∧ ((n.storeEntry inc).2 = true →
      (n.storeEntry inc).1.pindex = inc.last ∧
      (∀ i, inc.last < i → Table.get (n.storeEntry inc).1.pae i = Table.get n.pae i) ∧
      ((n.storeEntry inc).1.wal.last = n.wal.last ∧ (inc.sub = none ∨ ¬ shouldStore inc.ae) ∨
        (n.storeEntry inc).1.wal.last = inc.last)) := by
  rw [storeEntry] at keeps ⊢
  by_cases stores : shouldStore inc.ae
  · have last : inc.last = inc.ae.pindex + 1 := by rw [Incoming.last, if_pos stores]
    rw [if_pos stores] at keeps ⊢
    by_cases replayed : inc.sub = none
    · rw [if_pos replayed]
      refine ⟨.of_quiet { ordered with commit := ?_, stored := ?_ } rfl rfl,
        fun _ => ⟨last.symm, fun _ _ => rfl, .inl ⟨rfl, .inl replayed⟩⟩⟩
      · show n.commit ≤ inc.ae.pindex + 1
        rw [← next]
        exact Nat.le_succ_of_le ordered.commit
      · show inc.ae.pindex + 1 ≤ n.wal.last
        rw [← next]
        exact replay replayed
    rw [if_neg replayed] at keeps ⊢
    have stored := storeToWAL_advances ordered modest
    rcases result : n.storeToWAL inc.ae with ⟨m, _ | _⟩
    · rw [result] at stored keeps
      exact ⟨(stored keeps).1, fun ended => by cases ended⟩
    rw [result] at stored keeps
    obtain ⟨advances, pae, reached⟩ := stored (fun ended => by cases ended)
    obtain ⟨pindex, end_⟩ := reached rfl
    have modest' : inc.ae.Modest m.pindex := by
      rw [pindex]
      exact modest
    obtain ⟨cached, above⟩ := cachePendingEntry_advances advances.ordered modest'
    have initial : Advances (m.cachePendingEntry inc.ae)
        (m.cachePendingEntry inc.ae).resetInitializing :=
      .of_quiet (cached.ordered.of_part rfl) rfl rfl
    obtain ⟨_, only⟩ := cachePendingEntry_eq m inc.ae
    refine ⟨(advances.trans cached).trans initial, fun _ => ⟨?_, ?_, .inr ?_⟩⟩
    · rw [last]
      show (m.cachePendingEntry inc.ae).pindex = inc.ae.pindex + 1
      rw [only]
      exact pindex
    · intro i past
      rw [← pae]
      exact above i (by rw [pindex, ← last]; exact past)
    · rw [last]
      show (m.cachePendingEntry inc.ae).wal.last = inc.ae.pindex + 1
      rw [only]
      exact end_
  · have last : inc.last = inc.ae.pindex := by rw [Incoming.last, if_neg stores, Nat.add_zero]
    rw [if_neg stores]
    exact ⟨.of_quiet ordered rfl rfl,
      fun _ => ⟨next.trans last.symm, fun _ _ => rfl, .inl ⟨rfl, .inr stores⟩⟩⟩

theorem noteEntry_orderPart (n : Node) (e : Entry) :
    (n.noteEntry e).orderPart = n.orderPart ∧ (n.noteEntry e).apply = n.apply := by
  cases e <;> exact ⟨rfl, rfl⟩

theorem noteEntries_orderPart (n : Node) (entries : List Entry) :
    (entries.foldl noteEntry n).orderPart = n.orderPart ∧
      (entries.foldl noteEntry n).apply = n.apply := by
  induction entries generalizing n with
  | nil => exact ⟨rfl, rfl⟩
  | cons e rest ih =>
    obtain ⟨part, apply⟩ := noteEntry_orderPart n e
    obtain ⟨rest, applies⟩ := ih (n.noteEntry e)
    exact ⟨rest.trans part, applies.trans apply⟩

theorem followCommit_advances {n : Node} (ordered : n.Ordered) {commit : Nat}
    (known : commit ≤ n.pindex ∨ n.Nowhere (n.pindex + 1)) :
    Advances n (n.followCommit commit) := by
  rw [followCommit]
  split
  · have calm := sendCatchupSignal_calm n
    have signals := Advances.of_calm ordered calm
    dsimp only
    split
    · exact signals.trans (.of_quiet (signals.ordered.of_part rfl) rfl rfl)
    have still : commit ≤ n.sendCatchupSignal.pindex ∨
        n.sendCatchupSignal.Nowhere (n.sendCatchupSignal.pindex + 1) := by
      rw [Nowhere, calm.pindex, calm.pae, calm.wal]
      exact known
    exact signals.trans (applyThrough_commits signals.ordered still).advances
  · exact .of_quiet ordered rfl rfl

theorem acceptEntry_advances {n : Node} (ordered : n.Ordered) {inc : Incoming}
    (next : n.pindex = inc.ae.pindex) (modest : inc.ae.Modest (inc.ae.pindex + 1))
    (replay : inc.sub = none → n.pindex + 1 ≤ n.wal.last)
    (known : inc.ae.commit ≤ inc.last ∨ Table.get n.pae (inc.last + 1) = none ∧
      if inc.sub = none then n.wal.last ≤ inc.last else n.wal.last = n.pindex)
    (keeps : n.commit ≤ (n.acceptEntry inc).1.commit) : Advances n (n.acceptEntry inc).1 := by
  have stored := storeEntry_advances ordered next modest replay
  rw [acceptEntry] at keeps ⊢
  rcases result : n.storeEntry inc with ⟨m, _ | _⟩
  · rw [result] at stored keeps
    exact (stored (fun _ => keeps)).1
  rw [result] at stored
  obtain ⟨advances, reached⟩ := stored (fun ended => by cases ended)
  obtain ⟨pindex, pae, last⟩ := reached rfl
  obtain ⟨part, apply⟩ := noteEntries_orderPart m inc.ae.entries
  have noted := Settles.of_part advances.ordered part apply
  refine (advances.trans noted.advances).trans (followCommit_advances noted.ordered ?_)
  rw [Nowhere, noted.pindex, noted.pae, noted.last, pindex]
  refine known.imp_right (fun free => ⟨(pae _ (Nat.lt_succ_self _)).trans free.1, ?_⟩)
  have ends := free.2
  apply Nat.lt_succ_of_le
  rcases last with ⟨same, kind⟩ | at_
  · rw [same]
    split at ends
    · exact ends
    next live =>
      have heartbeat := kind.resolve_left live
      exact Nat.le_of_eq (by rw [ends, next, Incoming.last, if_neg heartbeat, Nat.add_zero])
  · exact Nat.le_of_eq at_

theorem processAppendEntry_advances {n : Node} (ordered : n.Ordered) {inc : Incoming}
    (takes : Takes n inc) (keeps : n.commit ≤ (n.processAppendEntry inc).1.commit) :
    Advances n (n.processAppendEntry inc).1 := by
  rw [processAppendEntry] at keeps ⊢
  by_cases closed : n.state = .closed ∨ n.werr.isSome
  · rw [if_pos closed]
    exact .of_quiet ordered rfl rfl
  rw [if_neg closed] at keeps ⊢
  rcases checkEntry_cases n inc with ⟨m, out, refused, calm, _⟩ | ⟨k, admits, checked⟩
  · rw [refused]
    exact .of_calm ordered calm
  have calm := admits.calm
  have start := Advances.of_calm ordered calm
  rw [checked] at keeps ⊢
  rcases checkPrevious_cases start.ordered inc with ⟨m, passed, fits⟩ | ⟨m, out, refused, moves⟩
  · rw [passed] at keeps ⊢
    -- A replayed entry fits the last one, so that nothing was truncated for it.
    have replayed : inc.sub = none → m.wal = n.wal ∧ m.pindex = n.pindex := by
      intro replay
      obtain ⟨pterm, loaded, _⟩ := takes.replay replay
      have numbered := (ordered.log _ _ loaded).1
      have fit : k.checkPrevious inc = .ok k := by
        rw [checkPrevious, if_pos ⟨by rw [calm.pterm, pterm], by rw [calm.pindex]; omega⟩]
      rw [fit] at passed
      obtain rfl : k = m := Except.ok.inj passed
      exact ⟨calm.wal, calm.pindex⟩
    refine (start.trans fits.advances).trans
      (acceptEntry_advances fits.advances.ordered fits.pindex takes.modest ?_ ?_ ?_)
    · intro replay
      obtain ⟨wal, pindex⟩ := replayed replay
      rw [wal, pindex]
      exact Wal.load_le_last (takes.replay replay).2.1
    · refine takes.known.imp_right (fun free => ⟨?_, ?_⟩)
      · rw [fits.pae, calm.pae]
        exact free.1
      · have ends := free.2
        split at ends
        next replay =>
          rw [if_pos replay, (replayed replay).1]
          exact ends
        next live =>
        rw [if_neg live]
        rcases fits.last with ⟨last, pindex⟩ | same
        · rw [last, pindex, calm.wal, calm.pindex]
          exact ends
        · exact same
    · rw [fits.commit, calm.commit]
      exact keeps
  · rw [refused] at keeps ⊢
    exact start.trans (moves (by rw [calm.commit]; exact keeps))

/-! ### The other operations -/

def Reaches (n : Node) (target : Nat) : Prop := target ≤ n.pindex ∨ n.Nowhere (n.pindex + 1)

instance (n : Node) (target : Nat) : Decidable (n.Reaches target) :=
  inferInstanceAs (Decidable (_ ∨ _))

section

variable {n : Node} (ordered : n.Ordered)

include ordered

theorem buildAppendEntry_modest (entries : List Entry) :
    (n.buildAppendEntry entries).Modest ((n.buildAppendEntry entries).pindex + 1) :=
  fun _ _ => Nat.le_succ_of_le ordered.commit

theorem storeOwn_advances (modest : ae.Modest (ae.pindex + 1))
    (keeps : (n.storeOwn ae).2 = false → n.commit ≤ (n.storeOwn ae).1.commit) :
    Advances n (n.storeOwn ae).1 := by
  rw [storeOwn] at keeps ⊢
  split at keeps
  next stores =>
    have stored := storeToWAL_advances ordered modest
    rw [if_pos stores]
    rcases result : n.storeToWAL ae with ⟨m, _ | _⟩
    · rw [result] at stored keeps
      exact (stored keeps).1
    rw [result] at stored
    obtain ⟨advances, _, reached⟩ := stored (fun ended => by cases ended)
    have pindex := (reached rfl).1
    exact advances.trans
      (cachePendingEntry_advances advances.ordered (by rw [pindex]; exact modest)).1
  next heartbeat =>
    rw [if_neg heartbeat]
    exact .of_quiet ordered rfl rfl

theorem sendAppendEntryLocked_advances {entries : List Entry} {checkLeader : Bool}
    (keeps : n.commit ≤ (n.sendAppendEntryLocked entries checkLeader).1.commit) :
    Advances n (n.sendAppendEntryLocked entries checkLeader).1 := by
  rw [sendAppendEntryLocked] at keeps ⊢
  by_cases idle : checkLeader ∧ n.state ≠ .leader
  · rw [if_pos idle]
    exact .of_quiet ordered rfl rfl
  rw [if_neg idle] at keeps ⊢
  have stored := storeOwn_advances ordered (buildAppendEntry_modest ordered entries)
  dsimp only at keeps ⊢
  rcases result : n.storeOwn (n.buildAppendEntry entries) with ⟨m, _ | _⟩
  · rw [result] at stored keeps
    exact stored (fun _ => keeps)
  rw [result] at stored
  have advances := stored (fun ended => by cases ended)
  dsimp only
  split
  · exact advances.trans (tryCommit_commits advances.ordered (.inl (Nat.le_refl _))).advances
  · exact advances

theorem pauseApplyLocked_advances : Advances n n.pauseApplyLocked := by
  have stepped : Advances n (if n.state ≠ .follower then n.stepdownLocked none else n) := by
    split
    · exact .of_calm ordered (stepdownLocked_calm n none)
    · exact .of_quiet ordered rfl rfl
  exact stepped.trans (.of_quiet (stepped.ordered.of_part rfl) rfl rfl)

theorem endResume_advances : Advances n n.endResume :=
  .of_quiet (ordered.of_part rfl) rfl rfl

theorem resumeAt_advances (next : index ≤ n.commit + 1) (reaches : n.Reaches n.hcommit) :
    Advances n (n.resumeAt index).1 ∧
      ∀ i ∈ (n.resumeAt index).2, i ≤ (n.resumeAt index).1.commit + 1 := by
  rw [resumeAt]
  split
  next wanted =>
    have known := ordered.known_next next (reaches.imp_left (Nat.le_trans wanted))
    obtain ⟨commits, reached⟩ := applyCommit_commits ordered next known
    rcases result : n.applyCommit index with ⟨m, _ | err⟩
    · rw [result] at commits reached
      refine ⟨commits.advances, ?_⟩
      rintro i ⟨⟩
      exact Nat.succ_le_succ (reached rfl)
    · rw [result] at commits
      exact ⟨commits.advances.trans (endResume_advances commits.advances.ordered), by simp⟩
  · exact ⟨endResume_advances ordered, by simp⟩

theorem markProcessed_advances (index applied : Nat) :
    Advances n (n.markProcessed index applied) := by
  rw [markProcessed]
  split
  · exact .of_quiet ordered rfl rfl
  next low =>
  refine .of_quiet { ordered with applied := ?_, processed := ?_ } rfl rfl
  · have := ordered.applied
    show max n.applied (min applied index) ≤ max n.processed index
    omega
  · exact Nat.max_le.mpr ⟨ordered.processed, Nat.le_of_not_lt low⟩

theorem takeSnapshot_advances (data : String) : Advances n (n.takeSnapshot data) := by
  have same : Advances n n := .of_quiet ordered rfl rfl
  rw [takeSnapshot]
  split
  · exact same
  split
  · have low : n.applied ≤ n.commit := Nat.le_trans ordered.applied ordered.processed
    exact (installSnapshot_settles ordered low).advances
  · exact same

end

end Node

namespace Applier

def Keeps (a : Applier) (op : ApplyOp) : Prop := a.node.commit ≤ (a.step op).node.commit

instance (a : Applier) (op : ApplyOp) : Decidable (a.Keeps op) := inferInstanceAs (Decidable (_ ≤ _))

def Reached (a : Applier) : ApplyOp → Prop
  | .append inc => a.node.Takes inc
  | .tryCommit index => a.node.Reaches index
  | .resumeApply => a.node.Reaches a.node.hcommit
  | .resumeNext _ => a.node.Reaches a.node.hcommit
  | _ => True

instance (a : Applier) : (op : ApplyOp) → Decidable (a.Reached op)
  | .append inc => inferInstanceAs (Decidable (a.node.Takes inc))
  | .tryCommit index => inferInstanceAs (Decidable (a.node.Reaches index))
  | .resumeApply | .resumeNext _ => inferInstanceAs (Decidable (a.node.Reaches a.node.hcommit))
  | .send _ _ | .pauseApply | .processed _ _ | .installSnapshot _ => .isTrue trivial

def Allowed (a : Applier) (op : ApplyOp) : Prop := a.Keeps op ∧ a.Reached op

instance (a : Applier) (op : ApplyOp) : Decidable (a.Allowed op) :=
  inferInstanceAs (Decidable (_ ∧ _))

/-- The loops of `ResumeApply` are at most one entry ahead. -/
structure Moved (n : Node) (a : Applier) : Prop where
  advances : n.Advances a.node
  resumes : ∀ i ∈ a.resumes, i ≤ a.node.commit + 1

theorem step_moved {n : Node} {a : Applier} (moved : Moved n a) {op : ApplyOp}
    (allowed : a.Allowed op) : Moved n (a.step op) := by
  obtain ⟨advances, resumes⟩ := moved
  obtain ⟨keeps, reached⟩ := allowed
  have ordered := advances.ordered
  -- An operation that leaves the loops alone.
  have moves {m : Node} (moved : a.node.Advances m) : Moved n ⟨m, a.resumes⟩ :=
    ⟨advances.trans moved, fun i mem =>
      Nat.le_trans (resumes i mem) (Nat.succ_le_succ moved.commit_le)⟩
  -- A section of a loop, with the loops that are left.
  have section_ {result : Node × Option Nat} {rest : List Nat} (moved : a.node.Advances result.1)
      (next : ∀ i ∈ result.2, i ≤ result.1.commit + 1) (left : ∀ i ∈ rest, i ∈ a.resumes) :
      Moved n ⟨result.1, rest ++ result.2.toList⟩ := by
    refine ⟨advances.trans moved, ?_⟩
    intro i mem
    rcases mem_append.mp mem with old | new
    · exact Nat.le_trans (resumes i (left i old)) (Nat.succ_le_succ moved.commit_le)
    · exact next i (Option.mem_toList.mp new)
  cases op with
  | append inc => exact moves (Node.processAppendEntry_advances ordered reached keeps)
  | send entries checkLeader => exact moves (Node.sendAppendEntryLocked_advances ordered keeps)
  | tryCommit index => exact moves (Node.tryCommit_commits ordered reached).advances
  | pauseApply => exact moves (Node.pauseApplyLocked_advances ordered)
  | resumeApply =>
    have moved : a.node.Advances a.node.resumeApply.1 ∧
        ∀ i ∈ a.node.resumeApply.2, i ≤ a.node.resumeApply.1.commit + 1 := by
      rw [Node.resumeApply]
      split
      · exact ⟨.of_quiet ordered rfl rfl, by simp⟩
      · split
        · exact Node.resumeAt_advances ordered (Nat.le_refl _) reached
        · exact ⟨Node.endResume_advances ordered, by simp⟩
    exact section_ moved.1 moved.2 (fun _ mem => mem)
  | resumeNext k =>
    rw [step]
    cases at_ : a.resumes[k]? with
    | none => exact ⟨advances, resumes⟩
    | some index =>
      have bound := resumes index (mem_of_getElem? at_)
      have moved : a.node.Advances (a.node.resumeNext index).1 ∧
          ∀ i ∈ (a.node.resumeNext index).2, i ≤ (a.node.resumeNext index).1.commit + 1 := by
        rw [Node.resumeNext]
        split
        · exact ⟨.of_quiet ordered rfl rfl, by simp⟩
        · exact Node.resumeAt_advances ordered bound reached
      exact section_ moved.1 moved.2 (fun _ mem => mem_of_mem_eraseIdx mem)
  | processed index applied => exact moves (Node.markProcessed_advances ordered index applied)
  | installSnapshot data => exact moves (Node.takeSnapshot_advances ordered data)

end Applier

/-- From any node in order, in any run that never truncates below the commit index and in which
what is committed to is in the log or nowhere. -/
theorem apply_queue_gap_free {n : Node} (ordered : n.Ordered) {ops : List ApplyOp}
    (allowed : Along Applier.step Applier.Allowed ⟨n, []⟩ ops) {m : Node}
    (reached : (run Applier.step ⟨n, []⟩ ops).node = m) :
    ∃ new, m.pushes = n.pushes ++ new ∧ Follows n.commit new m.commit ∧
      (n.commit :: new.map CommittedEntry.index).Pairwise (· < ·) ∧
      (new.map CommittedEntry.index).Nodup ∧
      m.applied ≤ m.processed ∧ m.processed ≤ m.commit ∧ m.commit ≤ m.pindex := by
  subst reached
  have start : Applier.Moved n ⟨n, []⟩ := ⟨.of_quiet ordered rfl rfl, by simp⟩
  have end_ := along_invariant Applier.step Applier.Allowed (Applier.Moved n)
    (fun a op moved allowed => Applier.step_moved moved allowed) start ops allowed
  obtain ⟨new, pushed, follows⟩ := end_.advances.pushed
  have order := end_.advances.ordered
  have increasing := follows.increasing
  exact ⟨new, pushed, follows, increasing, (pairwise_cons.mp increasing).2.imp Nat.ne_of_lt,
    order.applied, order.processed, order.commit⟩

def newFollower : Node := Node.fresh trio.members (newGroup "peer-one") "peer-one"

theorem newFollower_ordered : newFollower.Ordered := by
  refine ⟨Nat.le_refl _, Nat.le_refl _, Nat.le_refl _, Nat.le_refl _, Nat.le_refl _,
    Nat.le_refl _, ?_, ?_⟩
  · intro i ae found
    have above := (Wal.load_ok_iff.mp found).1
    have inside := Wal.load_le_last found
    exact absurd (Nat.lt_of_lt_of_le above inside) (Nat.lt_irrefl 0)
  · intro i ae found
    cases found

def live (leader : Id) (term commit pterm pindex : Nat) (data : String) (elapsed : Bool) :
    ApplyOp :=
  .append ⟨⟨leader, term, commit, pterm, pindex, [.normal data], 0⟩, some .live, leader, elapsed⟩

def pausedRun : List ApplyOp :=
  [live "peer-six" 1 0 0 0 "one" false, live "peer-six" 1 1 1 1 "two" false, .pauseApply,
    live "peer-six" 1 2 1 2 "three" false, live "peer-six" 1 3 1 3 "four" false, .resumeApply,
    .processed 2 1, .resumeNext 0, .resumeNext 0]

theorem apply_queue_gap_free_paused :
    Along Applier.step Applier.Allowed ⟨newFollower, []⟩ pausedRun ∧
      ((run Applier.step ⟨newFollower, []⟩ pausedRun).node.pushes.map CommittedEntry.index =
        [1, 2, 3]) ∧
      ∃ new, (run Applier.step ⟨newFollower, []⟩ pausedRun).node.pushes = [] ++ new ∧
        (new.map CommittedEntry.index).Nodup := by
  have allowed : Along Applier.step Applier.Allowed ⟨newFollower, []⟩ pausedRun := by
    decide +kernel
  obtain ⟨new, pushed, _, _, once, _⟩ := apply_queue_gap_free newFollower_ordered allowed rfl
  exact ⟨allowed, by decide +kernel, new, pushed, once⟩

/-- Four entries of a first leader, none committed. A second leader, whose log has another second
entry, makes the node cut its log down to the first; the cache keeps the old ones. The node asks to
be caught up, and asks again. The second entry comes in on the first inbox; then, on the second
one, the snapshot at 2 of a leader that has committed up to 6 by now. The node's log ends at 2, so
that the snapshot is stored as entry 3, and the commit index it names is followed. -/
def staleRun : List ApplyOp :=
  [live "peer-six" 1 0 0 0 "one" false, live "peer-six" 1 0 1 1 "old two" false,
    live "peer-six" 1 0 1 2 "old three" false, live "peer-six" 1 0 1 3 "old four" false,
    live "peer-two" 2 1 2 2 "three" false, live "peer-two" 2 1 2 3 "four" false,
    live "peer-two" 2 1 2 4 "five" true,
    .append ⟨⟨"peer-two", 2, 1, 1, 1, [.normal "two"], 2⟩, some (.inbox 0), "peer-two", false⟩,
    .append ⟨⟨"peer-two", 2, 6, 2, 2,
      [.snapshot "state", .peerState (some ⟨trio.members, 3⟩)], 0⟩, some (.inbox 1), "peer-two",
      false⟩]

/-- The old fourth entry is committed, although the log ends before it. -/
theorem stale_entry_committed :
    Along Applier.step Applier.Keeps ⟨newFollower, []⟩ staleRun ∧
      (run Applier.step ⟨newFollower, []⟩ staleRun).node.pindex = 3 ∧
      (run Applier.step ⟨newFollower, []⟩ staleRun).node.commit = 4 ∧
      ⟨4, [.normal "old four"]⟩ ∈ (run Applier.step ⟨newFollower, []⟩ staleRun).node.pushes := by
  decide +kernel

end LinearNats.Raft
