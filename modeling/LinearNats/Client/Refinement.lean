import LinearNats.Client.Go
import LinearNats.Client.Rust
import LinearNats.Client.TypeScript
import LinearNats.Client.Zig

/-! The four flushing outboxes against one specification. Go and Zig go on after a failure, Rust
and TypeScript stop at it; the outbox steps allow both. -/
namespace LinearNats.Client

/-- Whatever the publishers answer, all four libraries keep the contract of their settings. Only
the Go library can fail to build a message, and no flush of it is assumed to. -/
theorem outboxes_refine_one_specification
    (pub : Bool) (go : Go.OutboxOptions) (goOps : List Go.Op)
    (built : ∀ op ∈ goOps, op.Builds go.security)
    (rust : Rust.OutboxOptions) (rustOps : List (Op (Option Nat)))
    (ts : TypeScript.OutboxOptions) (tsOps : List (Op (Option Int)))
    (zig : Zig.OutboxOptions) (zigOps : List (Op (Option Nat))) :
    Contract (Go.newOutbox pub go).limit (Go.newOutbox pub go).effectiveDlq
      (run Go.World.step (Go.World.new pub go) goOps).state ∧
    Contract (Rust.Outbox.new rust).maxAttempts (Rust.Outbox.new rust).dlqSubject
      (Rust.implementation.state (run Rust.implementation.step
        (Rust.implementation.start rust) rustOps)) ∧
    Contract (TypeScript.Outbox.new ts).maxAttempts.toNat
      (TypeScript.truthy (TypeScript.Outbox.new ts).dlqSubject)
      (TypeScript.implementation.state (run TypeScript.implementation.step
        (TypeScript.implementation.start ts) tsOps)) ∧
    Contract (Zig.Outbox.init zig).maxAttempts (Zig.Outbox.init zig).dlqSubject
      (Zig.implementation.state (run Zig.implementation.step
        (Zig.implementation.start zig) zigOps)) :=
  ⟨(Go.law_run pub go built).contract, (Rust.implementation.law_run rust rustOps).contract,
    (TypeScript.implementation.law_run ts tsOps).contract,
    (Zig.implementation.law_run zig zigOps).contract⟩

/-- Every publish is rejected, and the dead letter is taken. -/
def rejected (_ : Nat) : Attempt := ⟨some "no responders", none⟩

def signed (_ : Nat) : Go.FlushAttempt :=
  { rejected 0 with crypto := ⟨.ok "key", .ok "proof"⟩ }

/-- In each library, one entry that two flushes fail to publish and the second dead-letters. -/
theorem outboxes_refine_dead_letter :
    Contract 2 (some "dlq") (run Go.World.step (Go.World.new true ⟨2, "dlq", some ⟨true, true⟩⟩)
      [.enqueueLinear "orders" [1] 0, .flush signed, .flush signed]).state ∧
    Contract 2 (some "dlq") (Rust.implementation.state (run Rust.implementation.step
      (Rust.implementation.start ⟨2, some "dlq", none⟩)
      [.enqueueLinear "orders" [1] none, .flush rejected, .flush rejected])) ∧
    Contract 2 (some "dlq") (TypeScript.implementation.state (run TypeScript.implementation.step
      (TypeScript.implementation.start ⟨some 2, some "dlq", none⟩)
      [.enqueueLinear "orders" [1] none, .flush rejected, .flush rejected])) ∧
    Contract 2 (some "dlq") (Zig.implementation.state (run Zig.implementation.step
      (Zig.implementation.start ⟨2, some "dlq", none⟩)
      [.enqueueLinear "orders" [1] none, .flush rejected, .flush rejected])) :=
  outboxes_refine_one_specification true ⟨2, "dlq", some ⟨true, true⟩⟩
    [.enqueueLinear "orders" [1] 0, .flush signed, .flush signed]
    (by
      intro op member
      simp only [List.mem_cons, List.not_mem_nil, or_false] at member
      rcases member with rfl | rfl | rfl
      · trivial
      · exact fun _ => rfl
      · exact fun _ => rfl)
    ⟨2, some "dlq", none⟩ [.enqueueLinear "orders" [1] none, .flush rejected, .flush rejected]
    ⟨some 2, some "dlq", none⟩ [.enqueueLinear "orders" [1] none, .flush rejected, .flush rejected]
    ⟨2, some "dlq", none⟩ [.enqueueLinear "orders" [1] none, .flush rejected, .flush rejected]

end LinearNats.Client
