import LinearNats.Raft.Ledger
import LinearNats.Raft.World

/-! Votes and the file they should be in: one node, any inputs, any failures of the writes of its
term-and-vote file, and restarts. -/
namespace LinearNats.Raft
open List

structure Ballot where
  term : Nat
  candidate : Id
  file : Option TermVote
  deriving DecidableEq

def Ballot.Durable (b : Ballot) : Prop := b.file = some ⟨b.term, some b.candidate⟩

/-- The ballots among the messages of a step. The file is last written before they are sent. -/
def ballots (file : Option TermVote) (out : List Rpc) : List Ballot :=
  out.filterMap (fun rpc => rpc.ballot.map (fun b => ⟨b.1, b.2, file⟩))

structure Voter where
  node : Node
  sent : List Ballot

/-- An input with the outcomes of the writes in that step, or a restart. -/
inductive Turn
  | input (input : Input) (outcomes : List (Option WriteErr))
  | restart (recovering : Bool)
  deriving DecidableEq

instance : (input : Input) → Decidable input.Proper
  | .voteRequest vr reply => inferInstanceAs (Decidable (0 < vr.term ∧ reply = vr.candidate))
  | .dispatch | .campaign | .electTimeout _ | .popVote | .voteResponse _ | .appendEntries _
  | .responses _ _ | .propose _ | .membership _ | .heartbeat | .stepDown _ | .stop
  | .processed _ _ | .snapshot _ | .beginCatchup _ | .catchupNext _ | .endCatchup _ =>
    .isTrue trivial

namespace Voter

def start (members : List Id) (config : Config) (id : Id) : Voter :=
  ⟨Node.fresh members config id, []⟩

def step (v : Voter) : Turn → Voter
  | .input input outcomes =>
    if input.Proper then
      let (n, out) := (v.node.withOutcomes outcomes).step input
      ⟨n, v.sent ++ ballots n.disk.file out⟩
    else v
  | .restart recovering => { v with node := v.node.restart recovering }

/-- No vote left before it was durable, and none against another in the same term. -/
def Faithful (v : Voter) : Prop :=
  (∀ b ∈ v.sent, b.Durable) ∧
    ∀ b ∈ v.sent, ∀ b' ∈ v.sent, b.term = b'.term → b.candidate = b'.candidate

/-- In a step with which the node votes, the write of the vote does not fail, unless the file
holds that vote already. -/
def WritesVote (v : Voter) : Turn → Prop
  | .input input outcomes => input.Proper → (v.node.withOutcomes outcomes).Records input
  | .restart _ => True

structure Kept (v : Voter) : Prop where
  sound : v.node.Sound
  standing : v.node.Standing
  faithful : v.Faithful
  bars : ∀ b ∈ v.sent, Bars v.node.disk.file b.term b.candidate

theorem mem_ballots {file : Option TermVote} {out : List Rpc} {b : Ballot} :
    b ∈ ballots file out ↔
      b.file = file ∧ ∃ rpc ∈ out, rpc.ballot = some (b.term, b.candidate) := by
  simp only [ballots, mem_filterMap, Option.map_eq_some_iff]
  constructor
  · rintro ⟨rpc, sent, ⟨t, c⟩, ballot, rfl⟩
    exact ⟨rfl, rpc, sent, ballot⟩
  · rintro ⟨held, rpc, sent, ballot⟩
    exact ⟨rpc, sent, _, ballot, by rw [← held]⟩

theorem Kept.input {v : Voter} (kept : v.Kept) {input : Input} (proper : input.Proper)
    {outcomes : List (Option WriteErr)} (records : (v.node.withOutcomes outcomes).Records input) :
    (v.step (.input input outcomes)).Kept := by
  have standing : (v.node.withOutcomes outcomes).Standing := kept.standing
  have sound := kept.sound.withOutcomes outcomes
  have votes := Node.step_votes standing proper
  simp only [step, if_pos proper]
  have old : ∀ b ∈ v.sent,
      Bars ((v.node.withOutcomes outcomes).step input).1.disk.file b.term b.candidate :=
    fun b sent => (votes.turns sound).bars sound (kept.bars b sent)
  have new : ∀ b ∈ ballots ((v.node.withOutcomes outcomes).step input).1.disk.file
      ((v.node.withOutcomes outcomes).step input).2, b.Durable ∧
        (v.node.withOutcomes outcomes).ballotOn input = some (b.term, b.candidate) := by
    intro b sent
    obtain ⟨file, rpc, inside, ballot⟩ := mem_ballots.mp sent
    have foreseen := votes.foreseen inside ballot
    exact ⟨file.trans (votes.recorded sound records foreseen), foreseen⟩
  have agree : ∀ b ∈ v.sent, ∀ b' ∈ ballots
      ((v.node.withOutcomes outcomes).step input).1.disk.file
      ((v.node.withOutcomes outcomes).step input).2, b.term = b'.term →
        b.candidate = b'.candidate := by
    intro b sent b' sent' level
    have bars := kept.bars b sent
    rw [level] at bars
    exact votes.agrees sound (new b' sent').2 bars
  refine ⟨votes.sound sound records, standing.step input, ⟨?_, ?_⟩, ?_⟩
  · exact forall_mem_append.mpr ⟨kept.faithful.1, fun b now => (new b now).1⟩
  · intro b sent b' sent' level
    rcases mem_append.mp sent with before | now
    · rcases mem_append.mp sent' with before' | now'
      · exact kept.faithful.2 b before b' before' level
      · exact agree b before b' now' level
    rcases mem_append.mp sent' with before' | now'
    · exact (agree b' before' b now level.symm).symm
    · have same := (new b now).2.symm.trans (new b' now').2
      rw [Option.some.injEq, Prod.mk.injEq] at same
      exact same.2
  · refine forall_mem_append.mpr ⟨old, fun b now => ?_⟩
    obtain ⟨file, _⟩ := mem_ballots.mp now
    exact ⟨_, file.symm.trans (new b now).1, .inr rfl⟩

theorem Kept.restart {v : Voter} (kept : v.Kept) (recovering : Bool) :
    (v.step (.restart recovering)).Kept :=
  ⟨Node.restart_sound recovering kept.sound.filed, .of_out (Node.restart_out _ recovering),
    kept.faithful, fun b sent => Node.restart_bars recovering kept.sound.filed (kept.bars b sent)⟩

theorem Kept.step {v : Voter} (kept : v.Kept) {turn : Turn} (writes : v.WritesVote turn) :
    (v.step turn).Kept := by
  cases turn with
  | input input outcomes =>
    by_cases proper : input.Proper
    · exact kept.input proper (writes proper)
    · simp only [Voter.step, if_neg proper]
      exact kept
  | restart recovering => exact kept.restart recovering

/-- The write of a vote fails, and the vote is sent all the same. -/
theorem Kept.breaks {v : Voter} (kept : v.Kept) {turn : Turn} (fails : ¬ v.WritesVote turn) :
    ¬ (v.step turn).Faithful := by
  cases turn with
  | input input outcomes =>
    simp only [WritesVote, Node.Records, Classical.not_imp, not_forall, not_or, not_not] at fails
    obtain ⟨proper, t, c, foreseen, missing, err, failed⟩ := fails
    have standing : (v.node.withOutcomes outcomes).Standing := kept.standing
    have votes := Node.step_votes standing proper
    obtain ⟨⟨rpc, sent, ballot⟩, absent⟩ := votes.unrecorded foreseen missing failed
    simp only [Voter.step, if_pos proper]
    intro faithful
    refine absent (faithful.1 ⟨t, c, _⟩ (mem_append_right _ ?_))
    exact mem_ballots.mpr ⟨rfl, rpc, sent, ballot⟩
  | restart recovering => exact absurd trivial fails

theorem start_kept (members : List Id) (config : Config) (id : Id) :
    (start members config id).Kept := by
  refine ⟨⟨?_, ?_, ?_, ?_⟩, .of_out (.inl rfl), ⟨?_, ?_⟩, ?_⟩
  · intro tv held
    cases held
  · intro tv held
    cases held
  · intro tv held
    cases held
  · exact fun voted => absurd rfl voted
  · exact fun b sent => absurd sent not_mem_nil
  · exact fun b sent => absurd sent not_mem_nil
  · exact fun b sent => absurd sent not_mem_nil

/-- A run keeps its votes exactly when every step that votes manages to write its vote. -/
theorem votes_faithful_iff (members : List Id) (config : Config) (id : Id) (turns : List Turn) :
    (∀ k, (run step (start members config id) (turns.take k)).Faithful) ↔
      Along step WritesVote (start members config id) turns :=
  always_iff_along step WritesVote Kept Faithful (fun _ kept => kept.faithful)
    (fun _ _ kept writes => kept.step writes) (fun _ _ kept fails => kept.breaks fails)
    (start_kept members config id) turns

/-- The disk is full when the vote is written; it is sent, and after a restart the node votes for
another candidate in the same term. -/
theorem full_disk_votes_twice :
    (run step (start trio.members (newGroup "peer-two") "peer-two")
      [.input .dispatch [], .input (.voteRequest ⟨1, 0, 0, "peer-one"⟩ "peer-one")
          [none, some .outOfSpace],
        .restart false, .input .dispatch [],
        .input (.voteRequest ⟨1, 0, 0, "peer-six"⟩ "peer-six") []]).sent =
      [⟨1, "peer-one", some ⟨1, none⟩⟩, ⟨1, "peer-six", some ⟨1, some "peer-six"⟩⟩] := by
  decide +kernel

end Voter

end LinearNats.Raft
