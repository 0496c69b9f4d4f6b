import LinearNats.Raft.Voting

/-! The term-and-vote file as a ledger of votes: what it rules out, what a step may write in it,
and what a restart reads back. -/
namespace LinearNats.Raft
open List

def Bars (file : Option TermVote) (t : Nat) (c : Id) : Prop :=
  ∃ tv, file = some tv ∧ (t < tv.term ∨ tv = ⟨t, some c⟩)

def Input.Proper : Input → Prop
  | .voteRequest vr reply => 0 < vr.term ∧ reply = vr.candidate
  | _ => True

namespace Node

/-- The file is never ahead of the node, and no vote is cast in term zero, which a restart does
not read back. -/
structure Sound (n : Node) : Prop where
  cached : n.Cached
  ahead : ∀ tv, n.disk.file = some tv → tv.term < n.term ∨ tv = ⟨n.term, n.vote⟩
  filed : ∀ tv, n.disk.file = some tv → tv.vote ≠ none → 0 < tv.term
  voted : n.vote ≠ none → 0 < n.term

def ledgerPart (n : Node) : Id × Nat × Option Id × Disk × Option TermVote :=
  (n.id, n.term, n.vote, n.disk, n.wtv)

variable {n m : Node} {t : Nat} {c : Id}

theorem Sound.of_part (sound : n.Sound) (same : m.ledgerPart = n.ledgerPart) : m.Sound := by
  cases m
  simp only [ledgerPart, Prod.mk.injEq] at same
  obtain ⟨rfl, rfl, rfl, rfl, rfl⟩ := same
  exact ⟨sound.cached, sound.ahead, sound.filed, sound.voted⟩

theorem Sound.withOutcomes (sound : n.Sound) (outcomes : List (Option WriteErr)) :
    (n.withOutcomes outcomes).Sound :=
  ⟨sound.cached, sound.ahead, sound.filed, sound.voted⟩

theorem disk_of_part (same : m.ledgerPart = n.ledgerPart) : m.disk = n.disk :=
  congrArg (·.2.2.2.1) same

theorem id_of_part (same : m.ledgerPart = n.ledgerPart) : m.id = n.id := congrArg (·.1) same

theorem recheck_ledger (n : Node) : n.recheck.ledgerPart = n.ledgerPart := by
  rcases recheck_loop n with same | left
  · rw [same]
  · rw [left]
    rfl

/-- A vote that the file bars others from is behind the node, or is the node's vote. -/
theorem Sound.barred (sound : n.Sound) (bars : Bars n.disk.file t c) :
    t < n.term ∨ (t = n.term ∧ n.vote = some c) := by
  obtain ⟨tv, file, below | same⟩ := bars
  · rcases sound.ahead tv file with behind | same
    · exact .inl (by omega)
    · rw [same] at below
      exact .inl below
  · rcases sound.ahead tv file with behind | same'
    · rw [same] at behind
      exact .inl behind
    · rw [same, TermVote.mk.injEq] at same'
      exact .inr ⟨same'.1, same'.2.symm⟩

def Passes (n : Node) (tv : TermVote) : Prop :=
  (tv = ⟨n.term, n.vote⟩ ∨ n.term < tv.term ∨ (tv.term = n.term ∧ n.vote = none)) ∧
    (tv.vote ≠ none → 0 < tv.term)

theorem Sound.bars_of_passes (sound : n.Sound) {tv : TermVote} (passes : n.Passes tv)
    (bars : Bars n.disk.file t c) : Bars (some tv) t c := by
  refine ⟨tv, rfl, ?_⟩
  have past := sound.barred bars
  rcases passes.1 with same | later | ⟨level, free⟩
  · rw [same]
    rcases past with below | ⟨level, vote⟩
    · exact .inl below
    · exact .inr (by rw [level, vote])
  · left
    omega
  rcases past with below | ⟨_, vote⟩
  · left
    omega
  · rw [free] at vote
    cases vote

/-! ### Steps that cast no vote -/

theorem Advance.sound (advance : Advance n m) (sound : n.Sound) : m.Sound := by
  refine ⟨advance.cached sound.cached, ?_, ?_, ?_⟩
  · intro tv file
    have old : n.disk.file = some tv ∨ tv = ⟨n.term, n.vote⟩ → tv.term < m.term ∨
        tv = ⟨m.term, m.vote⟩ := by
      intro held
      have known : tv.term < n.term ∨ tv = ⟨n.term, n.vote⟩ := held.elim (sound.ahead tv) .inr
      rcases advance.term with ⟨term, vote⟩ | ⟨later, _⟩
      · rw [term, vote]
        exact known
      rcases known with behind | same
      · exact .inl (by omega)
      · rw [same]
        exact .inl later
    rcases advance.file with same | ⟨tv', file', between⟩
    · exact old (.inl (same.symm.trans file))
    cases file'.symm.trans file
    rcases between with same | ⟨later, reached, none⟩
    · exact old (.inr same)
    rcases advance.term with ⟨term, _⟩ | ⟨_, vote⟩
    · omega
    rcases Nat.lt_or_eq_of_le reached with behind | level
    · exact .inl behind
    right
    cases tv
    simp only at level none
    rw [level, none, vote]
  · intro tv file voted
    rcases advance.file with same | ⟨tv', file', between⟩
    · exact sound.filed tv (same.symm.trans file) voted
    cases file'.symm.trans file
    rcases between with same | ⟨_, _, none⟩
    · rw [same] at voted ⊢
      exact sound.voted voted
    · exact absurd none voted
  · intro voted
    rcases advance.term with ⟨term, vote⟩ | ⟨_, vote⟩
    · rw [vote] at voted
      rw [term]
      exact sound.voted voted
    · exact absurd vote voted

def Turns (n m : Node) : Prop :=
  m.disk.file = n.disk.file ∨ ∃ tv, m.disk.file = some tv ∧ n.Passes tv

theorem Advance.turns (advance : Advance n m) (sound : n.Sound) : n.Turns m := by
  rcases advance.file with same | ⟨tv, file, same | ⟨later, _, none⟩⟩
  · exact .inl same
  · refine .inr ⟨tv, file, .inl same, ?_⟩
    rw [same]
    exact sound.voted
  · exact .inr ⟨tv, file, .inr (.inl later), fun voted => absurd none voted⟩

theorem Turns.bars (turns : n.Turns m) (sound : n.Sound) (bars : Bars n.disk.file t c) :
    Bars m.disk.file t c := by
  rcases turns with same | ⟨tv, file, passes⟩
  · rw [same]
    exact bars
  · rw [file]
    exact sound.bars_of_passes passes bars

theorem Turns.filed (turns : n.Turns m) (sound : n.Sound) :
    ∀ tv, m.disk.file = some tv → tv.vote ≠ none → 0 < tv.term := by
  intro tv file
  rcases turns with same | ⟨tv', file', passes⟩
  · exact sound.filed tv (same.symm.trans file)
  · cases file'.symm.trans file
    exact passes.2

/-! ### Writes of the file, exactly -/

theorem writeTermVote_disk (n : Node) :
    n.writeTermVote.disk =
      if n.wtv = some ⟨n.term, n.vote⟩ then n.disk else (n.disk.write ⟨n.term, n.vote⟩).1 := by
  unfold writeTermVote
  split
  · rfl
  split
  next written => rw [written]
  rename_i written
  rw [written]
  split
  · rfl
  · rcases setWriteErrLocked_cases _ _ with h | h <;> rw [h]

theorem writeTermVote_wtv (n : Node) :
    n.writeTermVote.wtv = none ∨ n.writeTermVote.wtv = some ⟨n.term, n.vote⟩ := by
  rcases writeTermVote_cases n with
    ⟨held, h⟩ | ⟨_, _, _, h⟩ | ⟨_, _, _, _, _, ⟨_, h⟩ | ⟨_, h | h⟩⟩
  · rw [h]; exact .inr held
  · rw [h]; exact .inr rfl
  · rw [h]; exact .inr rfl
  · rw [h]; exact .inl rfl
  · rw [h]; exact .inl rfl

theorem write_outcomes (d : Disk) (tv : TermVote) : (d.write tv).1.outcomes = d.outcomes.tail := by
  unfold Disk.write
  split
  next none =>
    rw [none]
    rfl
  next pending =>
    rw [pending]
    rfl
  next pending =>
    rw [pending]
    rfl

theorem write_file_of_success {d : Disk} (succeeds : ∀ err, d.outcomes.head? ≠ some (some err))
    (tv : TermVote) : (d.write tv).1.file = some tv := by
  unfold Disk.write
  split
  · rfl
  · rfl
  next err rest pending => exact absurd (by rw [pending]; rfl) (succeeds err)

theorem write_file_of_failure {d : Disk} {err : WriteErr}
    (fails : d.outcomes.head? = some (some err)) (tv : TermVote) :
    (d.write tv).1.file = d.file := by
  unfold Disk.write
  split
  next pending =>
    rw [pending] at fails
    cases fails
  next rest pending =>
    rw [pending] at fails
    cases fails
  · rfl

/-! ### Steps that cast one -/

theorem castVote_cases (n : Node) (c : Id) :
    ∃ disk wtv werr state, n.castVote c =
        { n with vote := some c, disk := disk, wtv := wtv, werr := werr, state := state } ∧
      (disk.file = n.disk.file ∨ disk.file = some ⟨n.term, some c⟩) ∧
      disk.outcomes <:+ n.disk.outcomes ∧ (wtv = none ∨ wtv = some ⟨n.term, some c⟩) := by
  unfold castVote
  rcases writeTermVote_cases { n with vote := some c } with
    ⟨held, h⟩ | ⟨disk, file, rest, h⟩ | ⟨disk, _, _, file, rest, ⟨_, h⟩ | ⟨_, h | h⟩⟩
  · exact ⟨_, _, _, _, h, .inl rfl, suffix_refl _, .inr held⟩
  · exact ⟨_, _, _, _, h, .inr file, rest, .inr rfl⟩
  · exact ⟨_, _, _, _, h, .inl file, rest, .inr rfl⟩
  · exact ⟨_, _, _, _, h, .inl file, rest, .inl rfl⟩
  · exact ⟨_, _, _, _, h, .inl file, rest, .inl rfl⟩

theorem castVote_file (n : Node) (c : Id) :
    (n.castVote c).disk.file = n.disk.file ∨
      (n.castVote c).disk.file = some ⟨n.term, some c⟩ := by
  obtain ⟨_, _, _, _, h, file, _⟩ := castVote_cases n c
  rw [h]
  exact file

theorem castVote_outcomes (n : Node) (c : Id) :
    (n.castVote c).disk.outcomes <:+ n.disk.outcomes := by
  obtain ⟨_, _, _, _, h, _, rest, _⟩ := castVote_cases n c
  rw [h]
  exact rest

theorem castVote_state (n : Node) (c : Id) :
    (n.castVote c).state = n.state ∨ (n.castVote c).state = .closed := writeTermVote_state _

@[simp] theorem castVote_vote (n : Node) (c : Id) : (n.castVote c).vote = some c :=
  writeTermVote_vote _

@[simp] theorem castVote_loop (n : Node) (c : Id) : (n.castVote c).loop = n.loop := by
  obtain ⟨_, _, _, _, h, _⟩ := castVote_cases n c
  rw [h]

@[simp] theorem castVote_votes (n : Node) (c : Id) : (n.castVote c).votes = n.votes := by
  obtain ⟨_, _, _, _, h, _⟩ := castVote_cases n c
  rw [h]

theorem castVote_recorded (c : Id) (succeeds : ∀ err, n.disk.outcomes.head? ≠ some (some err))
    (cached : n.Cached) : (n.castVote c).disk.file = some ⟨n.term, some c⟩ := by
  unfold castVote
  rw [writeTermVote_disk]
  split
  next held => exact cached _ held (by simp)
  · exact write_file_of_success succeeds _

theorem castVote_unrecorded (c : Id) {err : WriteErr}
    (fails : n.disk.outcomes.head? = some (some err)) : (n.castVote c).disk.file = n.disk.file := by
  unfold castVote
  rw [writeTermVote_disk]
  split
  · rfl
  · exact write_file_of_failure fails _

theorem castVote_sound (positive : 0 < n.term)
    (file : (n.castVote c).disk.file = some ⟨n.term, some c⟩) : (n.castVote c).Sound := by
  refine ⟨?_, ?_, ?_, ?_⟩
  · intro tv held _
    obtain ⟨_, _, _, _, h, _, _, none | own⟩ := castVote_cases n c
    · rw [h] at held
      cases none.symm.trans held
    · rw [h] at held
      cases own.symm.trans held
      exact file
  · intro tv held
    cases file.symm.trans held
    exact .inr (by rw [castVote_term, castVote_vote])
  · intro tv held _
    cases file.symm.trans held
    exact positive
  · intro _
    rw [castVote_term]
    exact positive

theorem castVote_turns {k : Node} (advance : Advance n k) (sound : n.Sound)
    (free : k.vote = none ∨ k.vote = some c) (positive : 0 < k.term) : n.Turns (k.castVote c) := by
  rcases castVote_file k c with same | written
  · rcases advance.turns sound with h | ⟨tv, file, passes⟩
    · exact .inl (same.trans h)
    · exact .inr ⟨tv, same.trans file, passes⟩
  refine .inr ⟨_, written, ?_, fun _ => positive⟩
  rcases advance.term with ⟨term, vote⟩ | ⟨later, _⟩
  · rcases free with none | own
    · exact .inr (.inr ⟨term, vote.symm.trans none⟩)
    · exact .inl (by rw [← term, ← vote, own])
  · exact .inr (.inl later)

/-! ### Any step -/

/-- A node that stands for election votes for itself, before it answers anyone. -/
def Standing (n : Node) : Prop :=
  n.state = .candidate →
    0 < n.term ∧ (n.vote = some n.id ∨ (n.vote = none ∧ n.looping = false))

def ballotOn (n : Node) : Input → Option (Nat × Id)
  | .campaign => if n.loop = .campaign ∧ n.state = .candidate then some (n.term, n.id) else none
  | .voteRequest vr _ =>
    if n.looping = true ∧ n.term ≤ vr.term ∧ (n.term < vr.term ∨ n.voteOk vr = true) ∧
        n.upToDate vr = true then some (vr.term, vr.candidate)
    else none
  | _ => none

/-- How often the file is written in that step before the vote is: a leader or a candidate of a
lower term may have its own term and vote to write, and the new term is written once. -/
def writesBefore (n : Node) : Input → Nat
  | .voteRequest vr _ =>
    if n.term < vr.term then
      if (n.state = .leader ∨ n.state = .candidate) ∧ n.wtv ≠ some ⟨n.term, n.vote⟩ then 2
      else if n.wtv = some ⟨vr.term, none⟩ then 0
      else 1
    else 0
  | _ => 0

/-- The step on `input` from `n` to `m` cast no vote, or exactly one after it reached `k`. -/
inductive Votes (n : Node) (input : Input) (m : Node) (out : List Rpc) : Prop
  | silent (k : Node) (advance : Advance n k) (same : m.ledgerPart = k.ledgerPart)
      (quiet : ∀ rpc ∈ out, rpc.Silent) (unforeseen : n.ballotOn input = none)
  | casts (k : Node) (c : Id) (rpc : Rpc) (advance : Advance n k)
      (free : k.vote = none ∨ k.vote = some c) (positive : 0 < k.term)
      (same : m.ledgerPart = (k.castVote c).ledgerPart) (sent : out = [rpc])
      (ballot : rpc.ballot = some (k.term, c)) (own : ∀ vr, rpc = .voteRequest vr → c = n.id)
      (foreseen : n.ballotOn input = some (k.term, c))
      (before : k.disk.outcomes = n.disk.outcomes.drop (n.writesBefore input))
      (origin : k.disk.file = n.disk.file ∨ n.term < k.term)

def Records (n : Node) (input : Input) : Prop :=
  ∀ t c, n.ballotOn input = some (t, c) → n.disk.file = some ⟨t, some c⟩ ∨
    ∀ err, n.disk.outcomes[n.writesBefore input]? ≠ some (some err)

section Votes

variable {n m : Node} {input : Input} {out : List Rpc}

theorem Votes.unmoved (same : m.ledgerPart = n.ledgerPart) (unforeseen : n.ballotOn input = none) :
    Votes n input m [] :=
  .silent n (.refl n) same (by simp) unforeseen

theorem Votes.recheck (votes : Votes n input m out) : Votes n input m.recheck out := by
  cases votes with
  | silent k advance same quiet unforeseen =>
    exact .silent k advance ((recheck_ledger m).trans same) quiet unforeseen
  | casts k c rpc advance free positive same sent ballot own foreseen before origin =>
    exact .casts k c rpc advance free positive ((recheck_ledger m).trans same) sent ballot own
      foreseen before origin

theorem Votes.turns (votes : Votes n input m out) (sound : n.Sound) : n.Turns m := by
  unfold Turns
  cases votes with
  | silent k advance same =>
    rw [disk_of_part same]
    exact advance.turns sound
  | casts k c rpc advance free positive same =>
    rw [disk_of_part same]
    exact castVote_turns advance sound free positive

theorem Votes.id (votes : Votes n input m out) : m.id = n.id := by
  cases votes with
  | silent k advance same => exact (id_of_part same).trans advance.id
  | casts k c rpc advance _ _ same =>
    exact ((id_of_part same).trans (castVote_id k c)).trans advance.id

theorem Votes.outcomes (votes : Votes n input m out) :
    m.disk.outcomes <:+ n.disk.outcomes := by
  cases votes with
  | silent k advance same =>
    rw [disk_of_part same]
    exact advance.outcomes
  | casts k c rpc advance _ _ same =>
    rw [disk_of_part same]
    exact (castVote_outcomes k c).trans advance.outcomes

theorem Votes.request (votes : Votes n input m out) {vr : VoteRequest}
    (sent : .voteRequest vr ∈ out) : 0 < vr.term ∧ vr.candidate = n.id := by
  cases votes with
  | silent k _ _ quiet => cases quiet _ sent
  | casts k c rpc _ _ positive _ out' ballot own =>
    rw [out', mem_singleton] at sent
    have named := own vr sent.symm
    rw [← sent, Rpc.ballot, Option.some.injEq, Prod.mk.injEq] at ballot
    exact ⟨by omega, ballot.2.trans named⟩

variable {t : Nat} {c : Id}

theorem Votes.foreseen (votes : Votes n input m out) {rpc : Rpc} (sent : rpc ∈ out)
    (ballot : rpc.ballot = some (t, c)) : n.ballotOn input = some (t, c) := by
  cases votes with
  | silent k _ _ quiet =>
    rw [quiet rpc sent] at ballot
    cases ballot
  | casts k _ rpc' _ _ _ _ out' ballot' _ foreseen =>
    rw [out', mem_singleton] at sent
    rw [sent, ballot'] at ballot
    rw [foreseen, ballot]

theorem Votes.recorded (votes : Votes n input m out) (sound : n.Sound) (records : n.Records input)
    (foreseen : n.ballotOn input = some (t, c)) : m.disk.file = some ⟨t, some c⟩ := by
  cases votes with
  | silent k _ _ _ unforeseen =>
    rw [unforeseen] at foreseen
    cases foreseen
  | casts k c' rpc advance _ _ same _ _ _ foreseen' before origin =>
    cases foreseen'.symm.trans foreseen
    rw [disk_of_part same]
    rcases records k.term c foreseen with held | succeeds
    · -- the file is not ahead of the node, so that the term was not raised
      have kept : k.disk.file = n.disk.file := by
        refine origin.resolve_right (fun later => ?_)
        rcases sound.ahead _ held with behind | same
        · exact absurd later (Nat.lt_asymm behind)
        · rw [TermVote.mk.injEq] at same
          omega
      rcases castVote_file k c with h | h
      · rw [h, kept, held]
      · exact h
    · refine castVote_recorded c ?_ (advance.cached sound.cached)
      intro err
      rw [before, head?_drop]
      exact succeeds err

theorem Votes.unrecorded (votes : Votes n input m out) {err : WriteErr}
    (foreseen : n.ballotOn input = some (t, c)) (missing : n.disk.file ≠ some ⟨t, some c⟩)
    (fails : n.disk.outcomes[n.writesBefore input]? = some (some err)) :
    (∃ rpc ∈ out, rpc.ballot = some (t, c)) ∧ m.disk.file ≠ some ⟨t, some c⟩ := by
  cases votes with
  | silent k _ _ _ unforeseen =>
    rw [unforeseen] at foreseen
    cases foreseen
  | casts k c' rpc advance _ _ same sent ballot _ foreseen' before origin =>
    cases foreseen'.symm.trans foreseen
    refine ⟨⟨rpc, by rw [sent]; exact mem_cons_self, ballot⟩, ?_⟩
    rw [← head?_drop, ← before] at fails
    rw [disk_of_part same, castVote_unrecorded c fails]
    rcases origin with kept | later
    · rw [kept]
      exact missing
    rcases advance.file with kept | ⟨tv, file, old | ⟨_, _, none⟩⟩
    · rw [kept]
      exact missing
    · rw [file, old]
      simp only [ne_eq, Option.some.injEq, TermVote.mk.injEq, not_and]
      omega
    rw [file]
    intro held
    cases held
    cases none

theorem Votes.sound (votes : Votes n input m out) (sound : n.Sound) (records : n.Records input) :
    m.Sound := by
  have recorded := votes
  cases votes with
  | silent k advance same => exact (advance.sound sound).of_part same
  | casts k c rpc advance _ positive same _ _ _ foreseen =>
    have file := recorded.recorded sound records foreseen
    rw [disk_of_part same] at file
    exact (castVote_sound positive file).of_part same

theorem Votes.agrees (votes : Votes n input m out) (sound : n.Sound) {c' : Id}
    (foreseen : n.ballotOn input = some (t, c)) (bars : Bars n.disk.file t c') : c' = c := by
  cases votes with
  | silent k _ _ _ unforeseen =>
    rw [unforeseen] at foreseen
    cases foreseen
  | casts k c₁ rpc advance free _ _ _ _ _ foreseen₁ =>
    cases foreseen₁.symm.trans foreseen
    rcases sound.barred bars with below | ⟨level, vote⟩
    · have := advance.le
      omega
    rcases advance.term with ⟨_, kept⟩ | ⟨later, _⟩
    · rw [kept, vote] at free
      rcases free with none | some
      · cases none
      · exact Option.some.inj some
    · omega

end Votes

theorem dispatch_ledger (n : Node) : n.dispatch.ledgerPart = n.ledgerPart := by
  unfold dispatch
  split <;> rfl

theorem queueVote_ledger (n : Node) (vresp : VoteResponse) :
    (n.queueVote vresp).ledgerPart = n.ledgerPart := by
  unfold queueVote
  split <;> rfl

theorem startCampaign_cases (n : Node) :
    (n.state ≠ .candidate ∧ n.startCampaign = ({ n with
      votes := [⟨n.term, n.id, true, false⟩], loop := .candidate [] [] }, [])) ∨
    (n.state = .candidate ∧ ∃ k, k = ({ n with votes := [] } : Node).castVote n.id ∧
      n.startCampaign = ({ k with
        votes := [⟨n.term, n.id, true, false⟩], loop := .candidate [] [] },
        [.voteRequest ⟨n.term, k.pterm, k.pindex, n.id⟩])) := by
  unfold startCampaign requestVote
  simp only []
  split
  next other => exact .inl ⟨other, rfl⟩
  next state =>
    refine .inr ⟨not_not.mp state, _, rfl, ?_⟩
    simp only [castVote_term, castVote_id, castVote_votes, nil_append]

theorem startCampaign_votes (standing : n.Standing) (loop : n.loop = .campaign) :
    Votes n .campaign n.startCampaign.1 n.startCampaign.2 := by
  rcases startCampaign_cases n with ⟨other, idle⟩ | ⟨state, k, cast, started⟩
  · rw [idle]
    exact .unmoved rfl (by simp [ballotOn, other])
  rw [started]
  obtain ⟨positive, own⟩ := standing state
  have free : n.vote = none ∨ n.vote = some n.id := own.symm.imp_left And.left
  have emptied : Advance n { n with votes := [] } := { Advance.refl n with }
  exact .casts _ n.id _ emptied free positive (by rw [cast]; rfl) rfl rfl (fun _ _ => rfl)
    (by simp [ballotOn, loop, state]) rfl (.inl rfl)

theorem electTimeout_cases (n : Node) (elapsed : Bool) :
    (∃ m, Keeps n m ∧ m.term = n.term ∧
        (n.electTimeout elapsed = m ∨ n.electTimeout elapsed = { m with loop := .run })) ∨
      (∃ m, Advance n m ∧ m.term = n.term + 1 ∧ m.vote = none ∧
        (m.state = .candidate ∨ m.state = .closed) ∧
        n.electTimeout elapsed = { m with loop := .run }) := by
  have stands : ∀ r : Node, r = { n.switchToCandidate with loop := .run } →
      (∃ m, Keeps n m ∧ m.term = n.term ∧ (r = m ∨ r = { m with loop := .run })) ∨
      (∃ m, Advance n m ∧ m.term = n.term + 1 ∧ m.vote = none ∧
        (m.state = .candidate ∨ m.state = .closed) ∧ r = { m with loop := .run }) := by
    intro r hr
    rcases switchToCandidate_cases n with same | ⟨advance, term, vote, _, state⟩
    · exact .inl ⟨n, .refl n, rfl, .inr (by rw [hr, same])⟩
    · exact .inr ⟨_, advance, term, vote, state, hr⟩
  unfold electTimeout
  split
  · split
    · exact .inl ⟨n, .refl n, rfl, .inl rfl⟩
    · split
      · have part := congrArg Prod.fst (catchupStalled_key n elapsed)
        rcases h : n.catchupStalled elapsed with ⟨m, _ | _⟩
        · rw [h] at part
          exact .inl ⟨m, .of_part part, term_of_part part, recheck_loop m⟩
        rw [h] at part
        have cancelled := (cancelCatchup_part m).trans part
        exact .inl ⟨m.cancelCatchup, .of_part cancelled, term_of_part cancelled,
          recheck_loop m.cancelCatchup⟩
      · exact stands _ rfl
  · exact stands _ rfl
  · exact .inl ⟨n, .refl n, rfl, .inl rfl⟩

theorem electTimeout_votes (n : Node) (elapsed : Bool) :
    Votes n (.electTimeout elapsed) (n.electTimeout elapsed) [] := by
  rcases electTimeout_cases n elapsed with ⟨m, keeps, _, h | h⟩ | ⟨m, advance, _, _, _, h⟩
  · exact .silent m keeps.toAdvance (by rw [h]) (by simp) rfl
  · exact .silent m keeps.toAdvance (by rw [h]; rfl) (by simp) rfl
  · exact .silent m advance (by rw [h]; rfl) (by simp) rfl

theorem candidateVote_cases (n : Node) (votes emptyVotes : List Id) (vresp : VoteResponse) :
    (Keeps n (n.candidateVote votes emptyVotes vresp).1 ∧
      (n.candidateVote votes emptyVotes vresp).2 = []) ∨
    (vresp.granted = true ∧ n.term = vresp.term ∧
      n.candidateVote votes emptyVotes vresp = n.countVote votes emptyVotes vresp) := by
  unfold candidateVote
  split
  next counts => exact .inr ⟨counts.1, counts.2, rfl⟩
  split
  next later => exact .inl ⟨rise_stepdown_keeps later none, rfl⟩
  · exact .inl ⟨.refl n, rfl⟩

theorem countVote_cases (n : Node) (votes emptyVotes : List Id) (vresp : VoteResponse) :
    (n.won (addVote votes vresp false) (addVote emptyVotes vresp true) = true ∧
      n.countVote votes emptyVotes vresp =
        ({ n.switchToLeader.1 with loop := .run }, n.switchToLeader.2)) ∨
    n.countVote votes emptyVotes vresp =
      ({ n with loop := .candidate (addVote votes vresp false) (addVote emptyVotes vresp true) },
        []) := by
  unfold countVote
  simp only []
  split
  next won => exact .inl ⟨won, rfl⟩
  · exact .inr rfl

theorem popVote_votes (n : Node) : Votes n .popVote n.popVote.1 n.popVote.2 := by
  unfold popVote
  split
  · exact .unmoved rfl rfl
  rename_i vresp rest _
  generalize hr : ({ n with votes := rest } : Node) = r
  have popped : Advance n r := by
    rw [← hr]
    exact { Advance.refl n with }
  simp only []
  split
  · exact .silent r popped rfl (by simp) rfl
  next votes emptyVotes _ =>
    rcases candidateVote_cases r votes emptyVotes vresp with ⟨keeps, nothing⟩ | ⟨_, _, counted⟩
    · exact .silent _ (popped.trans keeps.toAdvance) (recheck_ledger _)
        (by rw [nothing]; simp) rfl
    rw [counted]
    rcases countVote_cases r votes emptyVotes vresp with ⟨_, won⟩ | goes
    · obtain ⟨advance, _, _, quiet⟩ := switchToLeader_cases r
      rw [won]
      exact .silent _ (popped.trans advance) (recheck_ledger _) quiet rfl
    · rw [goes]
      exact .silent r popped (recheck_ledger _) (by simp) rfl
  · split
    · exact .silent _ (popped.trans (stepdownLocked_keeps r none).toAdvance) rfl (by simp) rfl
    · exact .silent r popped rfl (by simp) rfl
  · exact .unmoved rfl rfl

theorem adoptTerm_last (n : Node) (term : Nat) :
    (n.adoptTerm term).pterm = n.pterm ∧ (n.adoptTerm term).pindex = n.pindex := by
  unfold adoptTerm
  split
  · set m := if n.state ≠ .follower then n.stepdownLocked none else n with hm
    have down : m.pterm = n.pterm ∧ m.pindex = n.pindex := by
      rw [hm]
      split
      · obtain ⟨_, _, _, _, _, _, h⟩ := stepdownLocked_eq n none
        rw [h]
        exact ⟨rfl, rfl⟩
      · exact ⟨rfl, rfl⟩
    obtain ⟨_, _, _, _, written⟩ := writeTermVote_eq (m.cancelCatchup.raiseTerm term)
    obtain ⟨_, _, cancelled⟩ := cancelCatchup_eq m
    rw [written]
    simp only [raiseTerm, cancelled]
    exact down
  · exact ⟨rfl, rfl⟩

theorem adoptTerm_grants {vr : VoteRequest} :
    (n.adoptTerm vr.term).grants vr = true ↔
      (n.term < vr.term ∨ n.voteOk vr = true) ∧ n.upToDate vr = true := by
  obtain ⟨pterm, pindex⟩ := adoptTerm_last n vr.term
  have log : (n.adoptTerm vr.term).upToDate vr = n.upToDate vr := by
    unfold upToDate
    rw [pterm, pindex]
  have vote : (n.adoptTerm vr.term).voteOk vr = true ↔ n.term < vr.term ∨ n.voteOk vr = true := by
    unfold adoptTerm
    split
    next later => simp [voteOk, writeTermVote_vote, raiseTerm, later]
    next level => simp [level]
  simp only [grants, log, vote, decide_eq_true_eq]

theorem stepdownLocked_disk (opened : n.state ≠ .closed) (leader : Option Id) :
    (n.stepdownLocked leader).disk =
        (if n.wtv = some ⟨n.term, n.vote⟩ then n.disk
          else (n.disk.write ⟨n.term, n.vote⟩).1) ∧
      ((n.stepdownLocked leader).wtv = none ∨
        (n.stepdownLocked leader).wtv = some ⟨n.term, n.vote⟩) := by
  unfold stepdownLocked switchToFollowerLocked switchState
  rw [if_neg opened, if_neg opened]
  exact ⟨writeTermVote_disk _, writeTermVote_wtv _⟩

theorem raiseTerm_outcomes (n : Node) (term : Nat) :
    (n.raiseTerm term).writeTermVote.disk.outcomes =
      if n.wtv = some ⟨term, none⟩ then n.disk.outcomes else n.disk.outcomes.tail := by
  by_cases held : n.wtv = some ⟨term, none⟩
  · have known : (n.raiseTerm term).wtv =
        some ⟨(n.raiseTerm term).term, (n.raiseTerm term).vote⟩ := held
    rw [writeTermVote_disk, if_pos held, if_pos known]
    rfl
  · have stale : (n.raiseTerm term).wtv ≠
        some ⟨(n.raiseTerm term).term, (n.raiseTerm term).vote⟩ := held
    rw [writeTermVote_disk, if_neg held, if_neg stale]
    exact write_outcomes _ _

theorem cancelCatchup_disk (n : Node) :
    n.cancelCatchup.disk = n.disk ∧ n.cancelCatchup.wtv = n.wtv := by
  obtain ⟨_, _, cancelled⟩ := cancelCatchup_eq n
  rw [cancelled]
  exact ⟨rfl, rfl⟩

theorem other_term {term later : Nat} (higher : term < later) (vote : Option Id) :
    some (⟨term, vote⟩ : TermVote) ≠ some ⟨later, none⟩ := by
  simp only [ne_eq, Option.some.injEq, TermVote.mk.injEq, not_and]
  omega

theorem adoptTerm_outcomes (n : Node) (vr : VoteRequest) (reply : Id) :
    (n.adoptTerm vr.term).disk.outcomes =
      n.disk.outcomes.drop (n.writesBefore (.voteRequest vr reply)) := by
  unfold adoptTerm writesBefore
  by_cases later : n.term < vr.term
  · simp only [if_pos later]
    by_cases down : n.state = .leader ∨ n.state = .candidate
    · have opened : n.state ≠ .closed := by
        rcases down with h | h <;> rw [h] <;> decide
      have lead : n.state ≠ .follower := by
        rcases down with h | h <;> rw [h] <;> decide
      rw [if_pos lead]
      obtain ⟨disk, wtv⟩ := stepdownLocked_disk opened none
      have fresh : (n.stepdownLocked none).wtv ≠ some ⟨vr.term, none⟩ := by
        rcases wtv with h | h
        · rw [h]
          simp
        · rw [h]
          exact other_term later n.vote
      rw [raiseTerm_outcomes, (cancelCatchup_disk _).1, (cancelCatchup_disk _).2, if_neg fresh,
        disk]
      by_cases held : n.wtv = some ⟨n.term, n.vote⟩
      · have current : ¬ ((n.state = .leader ∨ n.state = .candidate) ∧
            n.wtv ≠ some ⟨n.term, n.vote⟩) := fun h => h.2 held
        rw [if_pos held, if_neg current, held, if_neg (other_term later n.vote)]
        exact drop_one.symm
      · rw [if_neg held, if_pos ⟨down, held⟩, write_outcomes]
        rw [← drop_one, ← drop_one, drop_drop]
    · have same : (if n.state ≠ .follower then n.stepdownLocked none else n) = n := by
        cases state : n.state with
        | follower => simp
        | leader => exact absurd (.inl state) down
        | candidate => exact absurd (.inr state) down
        | closed => simp [stepdownLocked, switchToFollowerLocked, state]
      have follows : ¬ ((n.state = .leader ∨ n.state = .candidate) ∧
          n.wtv ≠ some ⟨n.term, n.vote⟩) := fun h => down h.1
      rw [same, raiseTerm_outcomes, (cancelCatchup_disk n).1, (cancelCatchup_disk n).2,
        if_neg follows]
      by_cases held : n.wtv = some ⟨vr.term, none⟩
      · rw [if_pos held, if_pos held]
        rfl
      · rw [if_neg held, if_neg held]
        exact drop_one.symm
  · simp only [if_neg later]
    rfl

theorem processVoteRequest_votes (looping : n.looping = true) {vr : VoteRequest} {reply : Id}
    (positive : 0 < vr.term) (addressed : reply = vr.candidate) :
    Votes n (.voteRequest vr reply) (n.processVoteRequest vr reply).1
      (n.processVoteRequest vr reply).2 := by
  rcases processVoteRequest_cases n vr reply with ⟨m, empty, keeps, ungranted, refused⟩ |
    ⟨m, empty, adopted, reached, term, granted, sent⟩
  · rw [refused]
    refine .silent m keeps.toAdvance rfl (by simp [Rpc.Silent, Rpc.ballot]) ?_
    refine if_neg (fun foreseen => ungranted ?_)
    exact ⟨foreseen.2.1, adoptTerm_grants.mpr foreseen.2.2⟩
  · rw [sent]
    have advance : Advance n m := by
      rw [adopted]
      exact (adoptTerm_keeps n vr.term).toAdvance
    have free : m.vote = none ∨ m.vote = some vr.candidate := by
      simp only [grants, voteOk, Bool.decide_and, Bool.and_eq_true, decide_eq_true_eq] at granted
      exact granted.1
    refine .casts m vr.candidate _ advance free (by omega) rfl rfl ?_ (fun _ request => ?_) ?_ ?_ ?_
    · simp [Rpc.ballot, term, addressed]
    · cases request
    · rw [adopted, adoptTerm_grants] at granted
      rw [term]
      exact if_pos ⟨looping, reached, granted⟩
    · rw [adopted]
      exact adoptTerm_outcomes n vr reply
    · rcases Nat.lt_or_eq_of_le reached with later | level
      · exact .inr (by omega)
      · refine .inl ?_
        rw [adopted]
        unfold adoptTerm
        rw [if_neg (by omega)]

theorem step_votes (standing : n.Standing) {input : Input} (proper : input.Proper) :
    Votes n input (n.step input).1 (n.step input).2 := by
  by_cases quiet : input.quiet = true
  · obtain ⟨m, keeps, moved, silent⟩ := quiet_step n input quiet
    refine .silent m keeps.toAdvance ?_ silent ?_
    · rcases moved with ⟨same, _⟩ | rechecked
      · rw [same]
      · rw [rechecked, recheck_ledger]
    · cases input <;> first | rfl | cases quiet
  cases input with
  | dispatch => exact .unmoved ((recheck_ledger _).trans (dispatch_ledger n)) rfl
  | campaign =>
    simp only [step]
    split
    next loop => exact (startCampaign_votes standing loop).recheck
    next loop => exact .unmoved rfl (if_neg (fun h => loop h.1))
  | electTimeout elapsed => exact electTimeout_votes n elapsed
  | popVote => exact popVote_votes n
  | voteResponse vresp => exact .unmoved (queueVote_ledger n vresp) rfl
  | voteRequest vr reply =>
    simp only [step]
    split
    next looping => exact (processVoteRequest_votes looping proper.1 proper.2).recheck
    next looping => exact .unmoved rfl (if_neg (fun h => looping h.1))
  | _ => exact absurd rfl quiet

/-! ### Candidates -/

theorem not_candidate_of_out {state : RaftState} (out : Out state) : state ≠ .candidate := by
  rcases out with rfl | rfl <;> decide

theorem not_leader_of_out {state : RaftState} (out : Out state) : state ≠ .leader := by
  rcases out with rfl | rfl <;> decide

theorem Standing.of_out (out : Out n.state) : n.Standing :=
  fun candidate => absurd candidate (not_candidate_of_out out)

theorem Keeps.looping (keeps : Keeps n m) : m.looping = n.looping := by
  unfold Node.looping
  rw [keeps.loop]

theorem Keeps.standing (keeps : Keeps n m) (standing : n.Standing) : m.Standing := by
  intro candidate
  rcases keeps.state with ⟨term, state⟩ | out
  · have vote : m.vote = n.vote := by
      rcases keeps.term with ⟨_, vote⟩ | ⟨later, _⟩
      · exact vote
      · omega
    rw [term, vote, keeps.looping, keeps.id]
    exact standing (state.symm.trans candidate)
  · exact absurd candidate (not_candidate_of_out out)

theorem Standing.leave (standing : n.Standing) {loop : Loop}
    (idle : ({ n with loop := loop } : Node).looping = false) :
    ({ n with loop := loop } : Node).Standing := by
  intro candidate
  obtain ⟨positive, own⟩ := standing candidate
  exact ⟨positive, own.imp_right (fun none => ⟨none.1, idle⟩)⟩

theorem Standing.recheck (standing : n.Standing) : n.recheck.Standing := by
  rcases recheck_loop n with same | left
  · rw [same]
    exact standing
  · rw [left]
    exact standing.leave rfl

theorem Standing.dispatch (standing : n.Standing) : n.dispatch.Standing := by
  unfold Node.dispatch
  split
  next state => exact .of_out (.inl state)
  · exact standing.leave rfl
  next state =>
    intro candidate
    rw [state] at candidate
    cases candidate
  · exact standing

theorem candidate_of_castVote (candidate : (n.castVote c).state = .candidate) :
    n.state = .candidate := by
  rcases castVote_state n c with same | closed
  · exact same.symm.trans candidate
  · rw [closed] at candidate
    cases candidate

theorem Standing.startCampaign (standing : n.Standing) : n.startCampaign.1.Standing := by
  rcases startCampaign_cases n with ⟨other, idle⟩ | ⟨state, k, cast, started⟩
  · rw [idle]
    exact fun candidate => absurd candidate other
  rw [started]
  intro _
  refine ⟨?_, .inl ?_⟩
  · simp only [cast, castVote_term]
    exact (standing state).1
  · simp only [cast, castVote_vote, castVote_id]

theorem Standing.electTimeout (standing : n.Standing) (elapsed : Bool) :
    (n.electTimeout elapsed).Standing := by
  rcases electTimeout_cases n elapsed with ⟨m, keeps, _, h | h⟩ | ⟨m, advance, term, vote, _, h⟩
  · rw [h]
    exact keeps.standing standing
  · rw [h]
    exact (keeps.standing standing).leave rfl
  rw [h]
  intro _
  refine ⟨?_, .inr ⟨vote, rfl⟩⟩
  simp only [term]
  omega

theorem Standing.popVote (standing : n.Standing) : n.popVote.1.Standing := by
  unfold Node.popVote
  split
  · exact standing
  rename_i vresp rest _
  generalize hr : ({ n with votes := rest } : Node) = r
  have popped : r.Standing := by
    rw [← hr]
    exact standing
  simp only []
  split
  · exact popped
  next votes emptyVotes loop =>
    rcases candidateVote_cases r votes emptyVotes vresp with ⟨keeps, _⟩ | ⟨_, _, counted⟩
    · exact (keeps.standing popped).recheck
    rw [counted]
    rcases countVote_cases r votes emptyVotes vresp with ⟨_, won⟩ | goes
    · obtain ⟨_, _, leads, _⟩ := switchToLeader_cases r
      rw [won]
      refine Standing.recheck ?_
      rcases leads with ⟨_, leader⟩ | out
      · intro candidate
        cases leader.symm.trans candidate
      · exact .of_out out
    · rw [goes]
      refine Standing.recheck ?_
      intro candidate
      have looping : r.looping = true := by
        unfold looping
        rw [← hr, loop]
      obtain ⟨positive, own | ⟨_, idle⟩⟩ := popped candidate
      · exact ⟨positive, .inl own⟩
      · rw [looping] at idle
        cases idle
  · split
    · exact .of_out (stepdownLocked_out r none)
    · exact popped
  · exact standing

theorem Standing.processVoteRequest (standing : n.Standing) (looping : n.looping = true)
    (vr : VoteRequest) (reply : Id) : (n.processVoteRequest vr reply).1.Standing := by
  rcases processVoteRequest_cases n vr reply with ⟨m, empty, keeps, _, refused⟩ |
    ⟨m, empty, adopted, _, term, granted, sent⟩
  · rw [refused]
    exact keeps.standing standing
  · rw [sent]
    have keeps : Keeps n m := by
      rw [adopted]
      exact adoptTerm_keeps n vr.term
    intro candidate
    have stood := candidate_of_castVote candidate
    obtain ⟨positive, own | ⟨_, idle⟩⟩ := keeps.standing standing stood
    · have same : vr.candidate = m.id := by
        simp only [grants, voteOk, own, Bool.decide_and, Bool.and_eq_true, decide_eq_true_eq,
          reduceCtorEq, false_or, Option.some.injEq] at granted
        exact granted.1.symm
      refine ⟨?_, .inl ?_⟩
      · simp only [castVote_term]
        exact positive
      · simp only [castVote_vote, castVote_id, same]
    · rw [keeps.looping, looping] at idle
      cases idle

theorem Standing.step (standing : n.Standing) (input : Input) : (n.step input).1.Standing := by
  by_cases quiet : input.quiet = true
  · obtain ⟨m, keeps, ⟨same, _⟩ | rechecked, _⟩ := quiet_step n input quiet
    · rw [same]
      exact keeps.standing standing
    · rw [rechecked]
      exact (keeps.standing standing).recheck
  cases input with
  | dispatch => exact standing.dispatch.recheck
  | campaign =>
    simp only [Node.step]
    split
    · exact standing.startCampaign.recheck
    · exact standing
  | electTimeout elapsed => exact standing.electTimeout elapsed
  | popVote => exact standing.popVote
  | voteResponse vresp =>
    simp only [Node.step, queueVote]
    split
    · exact standing
    · exact standing
  | voteRequest vr reply =>
    simp only [Node.step]
    split
    next looping => exact (standing.processVoteRequest looping vr reply).recheck
    · exact standing
  | _ => exact absurd rfl quiet

/-! ### Restarts -/

theorem replay_keeps (n : Node) (index : Nat) (entries : List AppendEntry) :
    Keeps n (n.replay index entries) := by
  induction entries generalizing n index with
  | nil => exact .refl n
  | cons ae rest ih =>
    simp only [replay]
    split
    · exact .of_part rfl
    · exact ((keeps_handles n).processAppendEntry (.refl n) (fun _ _ => trivial)).1.trans
        (ih _ (index + 1))

theorem restart_keeps (n : Node) (recovering : Bool) :
    Keeps n.recover (n.restart recovering) := by
  have replayed : Keeps n.recover n.recover.replayWal := by
    unfold replayWal
    split
    · exact .refl _
    split
    · exact .of_part rfl
    rename_i ae _ _ _
    have aligned : Keeps n.recover { n.recover with
        pterm := ae.pterm, commit := max n.recover.commit ae.commit } := .of_part rfl
    exact aligned.trans (replay_keeps _ _ _)
  exact replayed.trans (.of_part rfl)

theorem restart_out (n : Node) (recovering : Bool) : Out (n.restart recovering).state :=
  out_of_keeps (restart_keeps n recovering) (.inl rfl)

theorem recover_sound (filed : ∀ tv, n.disk.file = some tv → tv.vote ≠ none → 0 < tv.term) :
    n.recover.Sound := by
  refine ⟨?_, ?_, filed, ?_⟩
  · intro tv held
    cases held
  · intro tv file
    right
    have saved : n.savedVote = if tv.term > 0 then tv else ⟨0, none⟩ := by
      unfold savedVote
      rw [show n.disk.file = some tv from file]
    show tv = ⟨n.savedVote.term, n.savedVote.vote⟩
    rw [saved]
    split
    · rfl
    rename_i zero
    have none : tv.vote = none := by
      by_contra voted
      exact zero (filed tv file voted)
    cases tv
    simp only [gt_iff_lt, Nat.not_lt, Nat.le_zero_eq] at zero none
    rw [zero, none]
  · show n.savedVote.vote ≠ none → 0 < n.savedVote.term
    unfold savedVote
    split
    · split
      next positive => exact fun _ => positive
      · simp
    · simp

theorem restart_sound (recovering : Bool)
    (filed : ∀ tv, n.disk.file = some tv → tv.vote ≠ none → 0 < tv.term) :
    (n.restart recovering).Sound :=
  (restart_keeps n recovering).toAdvance.sound (recover_sound filed)

theorem restart_bars (recovering : Bool)
    (filed : ∀ tv, n.disk.file = some tv → tv.vote ≠ none → 0 < tv.term)
    (bars : Bars n.disk.file t c) : Bars (n.restart recovering).disk.file t c :=
  ((restart_keeps n recovering).toAdvance.turns (recover_sound filed)).bars (recover_sound filed)
    bars

end Node

end LinearNats.Raft
