import LinearNats.Raft.Ledger

/-! What most of a node's code has in common: it leaves the log, the commit index, the membership
and what was applied alone. The functions that do change them are treated one by one later. -/
namespace LinearNats.Raft.Node
open List

/-- What was handed to the upper layer, without the signals of a catch-up. -/
def pushes (n : Node) : List CommittedEntry :=
  n.apply.filterMap (fun ce => ce.filter (fun ce => decide (ce.index ≠ 0)))

def corePart (n : Node) : Id × Wal × Option Snapshot × Nat × Nat × Nat × Nat × Nat × Nat × Nat ×
    List (Id × Bool) × Nat × Nat × Bool × List CommittedEntry :=
  (n.id, n.wal, n.snap, n.pterm, n.pindex, n.commit, n.processed, n.applied, n.papplied,
    n.membChangeIndex, n.peers, n.csz, n.qn, n.paused, n.pushes)

/-- The term may rise and the node may step down, which forgets the acknowledgements. -/
structure Calm (n m : Node) : Prop where
  core : m.corePart = n.corePart
  pae : m.pae = n.pae
  term : n.term ≤ m.term
  state : (m.term = n.term ∧ m.state = n.state ∧ m.acks = n.acks) ∨
    (n.state ≠ .closed ∧ m.state = .follower ∧
      (m.acks = [] ∨ (n.state = .follower ∧ m.acks = n.acks))) ∨ m.state = .closed
  closed : n.state = .closed → m.state = .closed
  writes : n.disk.outcomes = [] → m.werr = n.werr ∧ m.disk.outcomes = []

section

variable {n m k : Node}

theorem Calm.refl (n : Node) : Calm n n :=
  ⟨rfl, rfl, Nat.le_refl _, .inl ⟨rfl, rfl, rfl⟩, fun h => h, fun h => ⟨rfl, h⟩⟩

theorem Calm.trans (first : Calm n m) (second : Calm m k) : Calm n k where
  core := second.core.trans first.core
  pae := second.pae.trans first.pae
  term := Nat.le_trans first.term second.term
  state := by
    rcases second.state with ⟨term, state, acks⟩ | ⟨opened, follows, acks⟩ | closed
    · rw [term, state, acks]
      exact first.state
    · right
      left
      refine ⟨fun closed => opened (first.closed closed), follows, ?_⟩
      rcases acks with none | ⟨followed, same⟩
      · exact .inl none
      rw [same]
      rcases first.state with ⟨_, state, acks⟩ | ⟨_, _, acks⟩ | closed
      · exact .inr ⟨state.symm.trans followed, acks⟩
      · exact acks
      · exact absurd closed opened
    · exact .inr (.inr closed)
  closed := fun h => second.closed (first.closed h)
  writes := by
    intro succeeds
    obtain ⟨werr, rest⟩ := first.writes succeeds
    obtain ⟨werr', rest'⟩ := second.writes rest
    exact ⟨werr'.trans werr, rest'⟩

theorem Calm.wal (calm : Calm n m) : m.wal = n.wal := congrArg (fun p => p.2.1) calm.core

theorem Calm.pterm (calm : Calm n m) : m.pterm = n.pterm :=
  congrArg (fun p => p.2.2.2.1) calm.core

theorem Calm.pindex (calm : Calm n m) : m.pindex = n.pindex :=
  congrArg (fun p => p.2.2.2.2.1) calm.core

theorem Calm.commit (calm : Calm n m) : m.commit = n.commit :=
  congrArg (fun p => p.2.2.2.2.2.1) calm.core

theorem Calm.processed (calm : Calm n m) : m.processed = n.processed :=
  congrArg (fun p => p.2.2.2.2.2.2.1) calm.core

theorem Calm.applied (calm : Calm n m) : m.applied = n.applied :=
  congrArg (fun p => p.2.2.2.2.2.2.2.1) calm.core

theorem Calm.papplied (calm : Calm n m) : m.papplied = n.papplied :=
  congrArg (fun p => p.2.2.2.2.2.2.2.2.1) calm.core

theorem Calm.pushes (calm : Calm n m) : m.pushes = n.pushes :=
  congrArg (fun p => p.2.2.2.2.2.2.2.2.2.2.2.2.2.2) calm.core

theorem Calm.leading (calm : Calm n m) (leads : m.state = .leader) :
    n.state = .leader ∧ m.term = n.term ∧ m.acks = n.acks := by
  rcases calm.state with ⟨term, state, acks⟩ | ⟨_, follows, _⟩ | closed
  · exact ⟨state.symm.trans leads, term, acks⟩
  · cases follows.symm.trans leads
  · cases closed.symm.trans leads

theorem Calm.standing (calm : Calm n m) (stands : m.state = .candidate) :
    n.state = .candidate ∧ m.term = n.term ∧ m.acks = n.acks := by
  rcases calm.state with ⟨term, state, acks⟩ | ⟨_, follows, _⟩ | closed
  · exact ⟨state.symm.trans stands, term, acks⟩
  · cases follows.symm.trans stands
  · cases closed.symm.trans stands

end

def calmPart (n : Node) := (n.corePart, n.pae, n.term, n.state, n.acks, n.werr, n.disk)

theorem Calm.of_part {n m : Node} (same : m.calmPart = n.calmPart) : Calm n m := by
  simp only [calmPart, Prod.mk.injEq] at same
  obtain ⟨core, pae, term, state, acks, werr, disk⟩ := same
  refine ⟨core, pae, Nat.le_of_eq term.symm, .inl ⟨term, state, acks⟩, ?_, ?_⟩
  · intro closed
    exact state.trans closed
  · intro succeeds
    exact ⟨werr, disk ▸ succeeds⟩

theorem writeTermVote_calm (n : Node) : Calm n n.writeTermVote := by
  rcases writeTermVote_cases n with ⟨_, same⟩ | ⟨disk, _, rest, written⟩ |
    ⟨disk, err, hit, _, rest, ⟨_, failed⟩ | ⟨_, failed | failed⟩⟩
  · rw [same]
    exact .refl n
  · rw [written]
    refine ⟨rfl, rfl, Nat.le_refl _, .inl ⟨rfl, rfl, rfl⟩, fun h => h, fun succeeds => ⟨rfl, ?_⟩⟩
    rw [succeeds] at rest
    exact suffix_nil.mp rest
  · rw [failed]
    refine ⟨rfl, rfl, Nat.le_refl _, .inl ⟨rfl, rfl, rfl⟩, fun h => h, fun succeeds => ?_⟩
    rw [succeeds] at hit
    cases hit
  · rw [failed]
    refine ⟨rfl, rfl, Nat.le_refl _, .inl ⟨rfl, rfl, rfl⟩, fun h => h, fun succeeds => ?_⟩
    rw [succeeds] at hit
    cases hit
  · rw [failed]
    refine ⟨rfl, rfl, Nat.le_refl _, .inr (.inr rfl), fun _ => rfl, fun succeeds => ?_⟩
    rw [succeeds] at hit
    cases hit

theorem stepdownLocked_calm (n : Node) (leader : Option Id) :
    Calm n (n.stepdownLocked leader) := by
  unfold stepdownLocked switchToFollowerLocked
  split
  · exact .refl n
  rename_i opened
  simp only [switchState, opened, if_false, reduceCtorEq, false_and]
  have moved : Calm n { n with acks := [], leader := leader, state := .follower } :=
    ⟨rfl, rfl, Nat.le_refl _, .inr (.inl ⟨opened, rfl, .inl rfl⟩),
      fun closed => absurd closed opened, fun h => ⟨rfl, h⟩⟩
  exact moved.trans (writeTermVote_calm _)

theorem Calm.rise {n m : Node} {term : Nat} (later : n.term < term)
    (calm : Calm (n.raiseTerm term) m) (out : Out m.state) : Calm n m where
  core := calm.core
  pae := calm.pae
  term := Nat.le_trans (Nat.le_of_lt later) calm.term
  state := by
    rcases calm.state with ⟨_, state, acks⟩ | moved | closed
    · rcases out with follows | closed
      · have followed : n.state = .follower := state.symm.trans follows
        exact .inr (.inl ⟨by rw [followed]; decide, follows, .inr ⟨followed, acks⟩⟩)
      · exact .inr (.inr closed)
    · exact .inr (.inl moved)
    · exact .inr (.inr closed)
  closed := calm.closed
  writes := calm.writes

theorem rise_stepdown_calm {n : Node} {term : Nat} (later : n.term < term) (leader : Option Id) :
    Calm n (((n.raiseTerm term).writeTermVote).stepdownLocked leader) :=
  .rise later ((writeTermVote_calm _).trans (stepdownLocked_calm _ _)) (stepdownLocked_out _ _)

/-! ### Catch-ups -/

theorem cancelCatchup_calmPart (n : Node) : n.cancelCatchup.calmPart = n.calmPart := by
  unfold cancelCatchup
  split
  next c _ =>
    cases h : c.signal
    · rfl
    · simp only [calmPart, corePart, pushes, if_true, filterMap_append, filterMap_cons,
        Option.filter_none, filterMap_nil, append_nil]
  · rfl

theorem sendCatchupSignal_calmPart (n : Node) : n.sendCatchupSignal.calmPart = n.calmPart := by
  unfold sendCatchupSignal
  split
  · split
    · rfl
    · simp [calmPart, corePart, pushes, filterMap_append, Option.filter]
  · rfl

theorem catchupStalled_calmPart (n : Node) (elapsed : Bool) :
    (n.catchupStalled elapsed).1.calmPart = n.calmPart := by
  unfold catchupStalled
  split
  · rfl
  · split <;> rfl

theorem cancelCatchup_calm (n : Node) : Calm n n.cancelCatchup := .of_part (cancelCatchup_calmPart n)

theorem sendCatchupSignal_calm (n : Node) : Calm n n.sendCatchupSignal :=
  .of_part (sendCatchupSignal_calmPart n)

theorem createCatchup_calm (n : Node) (ae : AppendEntry) : Calm n (n.createCatchup ae) :=
  .of_part rfl

/-! ### Append entries, up to the consistency check -/

def Refusal : Rpc → Prop
  | .response _ ar => ar.success = false
  | _ => False

/-- `k` is the node when it comes to the consistency check. -/
structure Admits (n : Node) (inc : Incoming) (k : Node) : Prop where
  calm : Calm n k
  follows : k.state ≠ .leader
  stands : inc.sub ≠ none → k.state = .candidate → n.catchup.isSome
  level : inc.sub ≠ none → inc.isNew = true ∨ inc.ae.lterm ≠ 0 → k.term = inc.lterm
  reached : inc.lterm ≤ k.term
  live : inc.isNew = true → k.catchup = none

section

variable {n : Node} {inc : Incoming}

@[simp] theorem writeTermVote_catchup (n : Node) : n.writeTermVote.catchup = n.catchup := by
  obtain ⟨_, _, _, _, h⟩ := writeTermVote_eq n
  rw [h]

@[simp] theorem stepdownLocked_catchup (n : Node) (leader : Option Id) :
    (n.stepdownLocked leader).catchup = n.catchup := by
  obtain ⟨_, _, _, _, _, _, h⟩ := stepdownLocked_eq n leader
  rw [h]

theorem checkLeader_cases (n : Node) (inc : Incoming) :
    (∃ m, n.checkLeader inc = .ok m ∧ Calm n m ∧ m.state ≠ .leader ∧ m.catchup = n.catchup) ∨
      n.checkLeader inc = .error (n, [n.rejects inc.reply]) := by
  unfold checkLeader
  split
  · split
    · refine .inl ⟨_, rfl, ?_, ?_, ?_⟩
      · split
        next later => exact rise_stepdown_calm later _
        · exact stepdownLocked_calm n _
      · exact not_leader_of_out (stepdownLocked_out _ _)
      · rw [stepdownLocked_catchup]
        split
        · exact writeTermVote_catchup _
        · rfl
    · exact .inr rfl
  next follows => exact .inl ⟨n, rfl, .refl n, follows, rfl⟩

theorem checkCandidate_cases (n : Node) (inc : Incoming) (follows : n.state ≠ .leader) :
    ∃ m, n.checkCandidate inc = .ok m ∧ Calm n m ∧ m.state ≠ .leader ∧ m.catchup = n.catchup ∧
      (m.state = .candidate → inc.lterm < m.term) := by
  unfold checkCandidate
  split
  · refine ⟨_, rfl, ?_, ?_, ?_, ?_⟩
    · split
      next later => exact rise_stepdown_calm later _
      · exact stepdownLocked_calm n _
    · exact not_leader_of_out (stepdownLocked_out _ _)
    · rw [stepdownLocked_catchup]
      split
      · exact writeTermVote_catchup _
      · rfl
    · intro candidate
      exact absurd candidate (not_candidate_of_out (stepdownLocked_out _ _))
  next other =>
    exact ⟨n, rfl, .refl n, follows, rfl, fun candidate => by
      by_contra below
      exact other ⟨candidate, by omega⟩⟩

theorem checkTerm_cases (n : Node) (inc : Incoming) (follows : n.state ≠ .leader)
    (stands : n.state = .candidate → inc.lterm < n.term) :
    (∃ m, n.checkTerm inc = .ok m ∧ Calm n m ∧ m.state ≠ .leader ∧ m.catchup = n.catchup ∧
      (inc.sub ≠ none → m.state = .candidate → n.catchup.isSome) ∧
      (inc.sub ≠ none → inc.isNew = true ∨ inc.ae.lterm ≠ 0 → m.term = inc.lterm) ∧
      inc.lterm ≤ m.term) ∨
    (∃ out, n.checkTerm inc = .error (n, out) ∧ ∀ rpc ∈ out, Refusal rpc) := by
  unfold checkTerm
  split
  · exact .inr ⟨[], rfl, by simp⟩
  rename_i passes
  split
  next later =>
    set r := if inc.isNew then (n.raiseTerm inc.lterm).writeTermVote
      else n.raiseTerm inc.lterm with hr
    have raised : Calm (n.raiseTerm inc.lterm) r := by
      rw [hr]
      split
      · exact writeTermVote_calm _
      · exact .refl _
    have term : r.term = inc.lterm := by
      rw [hr]
      split
      · exact writeTermVote_term _
      · rfl
    have catchup : r.catchup = n.catchup := by
      rw [hr]
      split
      · exact writeTermVote_catchup _
      · rfl
    set m := if r.state ≠ .follower then r.stepdownLocked (some inc.ae.leader) else r with hm
    have out : Out m.state := by
      rw [hm]
      split
      · exact stepdownLocked_out _ _
      · rename_i follower
        exact .inl (not_not.mp follower)
    have moved : Calm (n.raiseTerm inc.lterm) m := by
      rw [hm]
      split
      · exact raised.trans (stepdownLocked_calm _ _)
      · exact raised
    have term' : m.term = inc.lterm := by
      rw [hm]
      split
      · exact (stepdownLocked_term _ _).trans term
      · exact term
    have catchup' : m.catchup = n.catchup := by
      rw [hm]
      split
      · exact (stepdownLocked_catchup _ _).trans catchup
      · exact catchup
    exact .inl ⟨m, rfl, .rise later moved out, not_leader_of_out out, catchup',
      fun _ candidate => absurd candidate (not_candidate_of_out out), fun _ _ => term',
      Nat.le_of_eq term'.symm⟩
  next notLater =>
    split
    · refine .inr ?_
      split
      · exact ⟨_, rfl, by simp [Refusal, rejects]⟩
      · exact ⟨_, rfl, by simp⟩
    rename_i notOld
    have level : inc.sub ≠ none → inc.isNew = true ∨ inc.ae.lterm ≠ 0 → n.term = inc.lterm := by
      intro sub kind
      by_contra differs
      exact notOld ⟨by omega, sub, kind⟩
    refine .inl ⟨n, rfl, .refl n, follows, rfl, ?_, level, by omega⟩
    intro sub candidate
    have below := stands candidate
    -- neither live nor sent with a leader's term, so it came in on our own catch-up inbox
    have old : ¬ (inc.isNew = true ∨ inc.ae.lterm ≠ 0) := by
      intro kind
      have := level sub kind
      omega
    by_contra none
    refine passes ⟨fun new => old (.inl new), sub, .inl ?_, ?_⟩
    · by_contra lterm
      exact old (.inr lterm)
    · unfold onCatchupSub
      cases h : n.catchup with
      | none => simp
      | some c => simp [h] at none

theorem checkCatchup_cases (n : Node) (inc : Incoming) :
    (∃ m, n.checkCatchup inc = .ok m ∧ Calm n m ∧ m.state = n.state ∧ m.term = n.term ∧
      (inc.isNew = true → m.catchup = none)) ∨
    (∃ m out, n.checkCatchup inc = .error (m, out) ∧ Calm n m ∧ ∀ rpc ∈ out, Refusal rpc) := by
  unfold checkCatchup
  split
  next none => exact .inl ⟨n, rfl, .refl n, rfl, rfl, fun _ => none⟩
  rename_i c held
  split
  · refine .inl ⟨_, rfl, cancelCatchup_calm n, ?_, ?_, fun _ => ?_⟩
    all_goals simp only [cancelCatchup, held]
  split
  · have part := catchupStalled_calmPart n inc.elapsed
    rcases h : n.catchupStalled inc.elapsed with ⟨m, _ | _⟩
    · rw [h] at part
      exact .inr ⟨m, [], rfl, .of_part part, by simp⟩
    · rw [h] at part
      exact .inr ⟨_, _, rfl, (Calm.of_part part).trans (createCatchup_calm m inc.ae),
        by simp [Refusal, asksCatchup]⟩
  next old => exact .inl ⟨n, rfl, .refl n, rfl, rfl, fun new => absurd new old⟩

theorem trackLeader_calm (n : Node) (inc : Incoming) :
    Calm n (n.trackLeader inc) ∧ (n.trackLeader inc).catchup = n.catchup ∧
      (n.trackLeader inc).term = n.term := by
  unfold trackLeader
  split
  · have noted : Calm n { n with leader := some inc.ae.leader } := .of_part rfl
    exact ⟨noted.trans (writeTermVote_calm _), writeTermVote_catchup _, writeTermVote_term _⟩
  · exact ⟨.refl n, rfl, rfl⟩

theorem checkOverrun_cases (n : Node) (inc : Incoming) :
    (∃ m, n.checkOverrun inc = .ok m ∧ Calm n m ∧ m.state = n.state ∧ m.term = n.term ∧
      m.catchup = n.catchup) ∨
    (∃ m, n.checkOverrun inc = .error (m, []) ∧ Calm n m) := by
  unfold checkOverrun
  simp only []
  split
  · split
    · split
      · exact .inr ⟨_, rfl, cancelCatchup_calm n⟩
      · exact .inl ⟨_, rfl, .of_part rfl, rfl, rfl, rfl⟩
    · split
      · have paused : Calm n { n with quorumPaused := true } := .of_part rfl
        exact .inr ⟨_, rfl, paused.trans (cancelCatchup_calm _)⟩
      · exact .inl ⟨n, rfl, .refl n, rfl, rfl, rfl⟩
  · exact .inl ⟨n, rfl, .refl n, rfl, rfl, rfl⟩

/-- An append entry is dropped or refused, or gets to the consistency check. -/
theorem checkEntry_cases (n : Node) (inc : Incoming) :
    (∃ m out, n.checkEntry inc = .error (m, out) ∧ Calm n m ∧ ∀ rpc ∈ out, Refusal rpc) ∨
    (∃ k, Admits n inc k ∧ n.checkEntry inc = k.checkPrevious inc) := by
  unfold checkEntry
  rcases checkLeader_cases n inc with ⟨a, okA, calmA, leadsA, catchupA⟩ | rejected
  · obtain ⟨b, okB, calmB, leadsB, catchupB, standsB⟩ := checkCandidate_cases a inc leadsA
    rw [okA]
    simp only [bind, Except.bind, okB]
    have ab := calmA.trans calmB
    rcases checkTerm_cases b inc leadsB standsB with
      ⟨c, okC, calmC, leadsC, catchupC, standsC, levelC, reachedC⟩ | ⟨out, dropped, refusals⟩
    · simp only [okC]
      have ac := ab.trans calmC
      rcases checkCatchup_cases c inc with ⟨d, okD, calmD, stateD, termD, liveD⟩ |
        ⟨m, out, dropped, calm, refusals⟩
      · obtain ⟨tracked, catchupT, termT⟩ := trackLeader_calm d inc
        simp only [okD]
        have at_track := (ac.trans calmD).trans tracked
        rcases checkOverrun_cases (d.trackLeader inc) inc with
          ⟨k, okK, calmK, stateK, termK, catchupK⟩ | ⟨m, dropped, calm⟩
        · simp only [okK]
          refine .inr ⟨k, ⟨at_track.trans calmK, ?_, ?_, ?_, ?_, ?_⟩, rfl⟩
          · intro leads
            rw [stateK] at leads
            exact leadsC (stateD.symm.trans (tracked.leading leads).1)
          · intro sub candidate
            rw [stateK] at candidate
            rw [← catchupA, ← catchupB]
            exact standsC sub (stateD.symm.trans (tracked.standing candidate).1)
          · intro sub kind
            rw [termK, termT, termD]
            exact levelC sub kind
          · rw [termK, termT, termD]
            exact reachedC
          · intro new
            rw [catchupK, catchupT]
            exact liveD new
        · simp only [dropped]
          exact .inl ⟨m, [], rfl, at_track.trans calm, by simp⟩
      · simp only [dropped]
        exact .inl ⟨m, out, rfl, ac.trans calm, refusals⟩
    · simp only [dropped]
      exact .inl ⟨b, out, rfl, ab, refusals⟩
  · rw [rejected]
    exact .inl ⟨n, _, rfl, .refl n, by simp [Refusal, rejects]⟩

end

end LinearNats.Raft.Node
