import LinearNats.Server.LinearEvent
import LinearNats.Client.Gleam

/-! When a client library takes a received message for linear, and when it agrees with the server
that delivered it. -/
namespace LinearNats.Client
open Server List

/-- Blanks around a value, as the clients' header libraries trim them. -/
def trimBlank (s : Bytes) : Bytes :=
  (s.dropWhile (fun c => c ∈ blanks)).rdropWhile (fun c => c ∈ blanks)

/-- What a header library returns for a key: the value of the first line with exactly that key. -/
def headerGet (lines : List Line) (key : Bytes) : Option Bytes :=
  (lines.find? (fun l => l.key = key)).map (fun l => trimBlank l.value)

def eventKey : Bytes := ascii linearEventHeader
def eventType : Bytes := ascii linearEventType

/-- `Header.Get` of the Go library returns an empty string for a missing key. -/
def Go.isLinear (lines : List Line) : Bool := (headerGet lines eventKey).getD [] == eventType

def Rust.isLinear (lines : List Line) : Bool :=
  (headerGet lines eventKey).any (fun v => v == eventType)

def TypeScript.isLinear (lines : List Line) : Bool := headerGet lines eventKey == some eventType

def Gleam.isLinear (lines : List Line) : Bool :=
  Gleam.headerValue (lines.map (fun l => (l.key, trimBlank l.value))) eventKey == some eventType

/-- The header part of `readLoop`: the first line is skipped, so is every line without a colon. -/
def Zig.readHeaders (hdr : Bytes) : List (Bytes × Bytes) :=
  ((Search.pieces crlf hdr).drop 1).filterMap (fun line =>
    if line.length = 0 then none
    else
      match line.findIdx? (fun c => c == colon) with
      | none => none
      | some index => some (line.take index, trimBlank (line.drop (index + 1))))

def Zig.isLinear (hdr : Bytes) : Bool :=
  (Zig.readHeaders hdr).any (fun h => h.1 == eventKey && h.2 == eventType)

/-- Server and clients agree on a delivered message. -/
def Agree (b : Block) (payload : Bytes) : Prop :=
  let server := isLinearEvent b.bytes.length (b.bytes ++ payload)
  server = Go.isLinear b.lines ∧ server = Rust.isLinear b.lines ∧
    server = TypeScript.isLinear b.lines ∧ server = Gleam.isLinear b.lines ∧
    server = Zig.isLinear b.bytes

theorem headerValue_lines (lines : List Line) (key : Bytes) :
    Gleam.headerValue (lines.map (fun l => (l.key, trimBlank l.value))) key =
      headerGet lines key := by
  induction lines with
  | nil => rfl
  | cons l lines ih =>
    simp only [map_cons, Gleam.headerValue, ih, headerGet, find?_cons]
    by_cases same : l.key = key
    · simp [same]
    · simp [same]

theorem readHeaders_block (b : Block) :
    Zig.readHeaders b.bytes = b.lines.map (fun l => (l.key, trimBlank l.value)) := by
  have line : ∀ l : Line, (if l.text.length = 0 then none else
      match l.text.findIdx? (fun c => c == colon) with
      | none => none
      | some index => some (l.text.take index, trimBlank (l.text.drop (index + 1)))) =
      some (l.key, trimBlank l.value) := by
    intro l
    have index : l.text.findIdx? (fun c => c == colon) = some l.key.length := by
      have absent : l.key.findIdx? (fun c => c == colon) = none := by
        rw [findIdx?_eq_none_iff]
        intro c hc
        simpa using fun same : c = colon => l.keyPlain.1 (same ▸ hc)
      simp [Line.text, findIdx?_append, absent, findIdx?_cons]
    have size : l.text.length ≠ 0 := by simp [Line.text]
    rw [if_neg size, index]
    simp [Line.text]
  rw [Zig.readHeaders, pieces_crlf_block, drop_one, tail_cons, filterMap_append, filterMap_map]
  simp only [Function.comp_def, line]
  simp

theorem first_value_clients (lines : List Line) :
    Go.isLinear lines = TypeScript.isLinear lines ∧
      Rust.isLinear lines = TypeScript.isLinear lines ∧
      Gleam.isLinear lines = TypeScript.isLinear lines := by
  rw [Gleam.isLinear, headerValue_lines, Go.isLinear, Rust.isLinear, TypeScript.isLinear]
  cases headerGet lines eventKey with
  | none => exact ⟨by decide, rfl, rfl⟩
  | some v => exact ⟨rfl, rfl, rfl⟩

theorem zig_isLinear (b : Block) :
    Zig.isLinear b.bytes =
      b.lines.any (fun l => l.key == eventKey && trimBlank l.value == eventType) := by
  rw [Zig.isLinear, readHeaders_block, any_map]
  rfl

theorem trimBlank_split (s : Bytes) :
    ∃ before after, s = before ++ (trimBlank s ++ after) ∧ (∀ c ∈ before, c ∈ blanks) ∧
      ∀ c ∈ after, c ∈ blanks := by
  refine ⟨s.takeWhile (fun c => c ∈ blanks),
    (s.dropWhile (fun c => c ∈ blanks)).rtakeWhile (fun c => c ∈ blanks), ?_, ?_, ?_⟩
  · rw [trimBlank, rdropWhile_append_rtakeWhile, takeWhile_append_dropWhile]
  · intro c hc
    simpa using mem_takeWhile_imp hc
  · intro c hc
    simpa using mem_rtakeWhile_imp hc

theorem linear_of_trimBlank {l : Line} (same : trimBlank l.value = eventType) :
    l.linear = true := by
  obtain ⟨before, after, split, left, right⟩ := trimBlank_split l.value
  rw [same] at split
  have skip : l.value.dropWhile (fun c => c == blank) =
      before.dropWhile (fun c => c == blank) ++ (eventType ++ after) := by
    rw [split, dropWhile_append]
    split
    next empty =>
      rw [isEmpty_iff.mp empty]
      rfl
    · rfl
  have rest : ∀ c ∈ before.dropWhile (fun c => c == blank), c ∈ blanks :=
    fun c hc => left c ((dropWhile_suffix _).subset hc)
  rw [Line.linear, skip]
  have trimmed := trimSpace_blanks rest right
  rw [show eventType = Server.linearEventType from rfl, trimmed]
  decide

/-- The message has one reading. If the first line that sets the event type reads as linear, the
server's search must get to it; if not, no later line may read as linear, and the server must
not take a variant spelling of the first one for it. -/
def OneReading (b : Block) : Prop :=
  match b.lines.find? (fun l => l.key = eventKey) with
  | none => True
  | some l =>
    if trimBlank l.value = eventType then b.Reaches eventKey
    else (∀ l' ∈ b.lines, l'.key = eventKey → trimBlank l'.value ≠ eventType) ∧
      (b.Reaches eventKey → l.linear = false)

theorem agree_iff_oneReading (b : Block) (payload : Bytes) : Agree b payload ↔ OneReading b := by
  obtain ⟨go, rust, gleam⟩ := first_value_clients b.lines
  have server := isLinearEvent_block b payload
  rw [show Server.linearEventHeader = eventKey from rfl] at server
  have agree : Agree b payload ↔
      isLinearEvent b.bytes.length (b.bytes ++ payload) = TypeScript.isLinear b.lines ∧
      isLinearEvent b.bytes.length (b.bytes ++ payload) = Zig.isLinear b.bytes := by
    simp only [Agree, go, rust, gleam]
    tauto
  rw [agree, server, zig_isLinear, TypeScript.isLinear, headerGet, OneReading]
  cases found : b.lines.find? (fun l => l.key = eventKey) with
  | none =>
    have nobody : b.lines.any (fun l => l.key == eventKey && trimBlank l.value == eventType) =
        false := by
      rw [any_eq_false]
      intro l hl
      have := find?_eq_none.mp found l hl
      simp_all
    simp [nobody]
  | some l =>
    have key : l.key = eventKey := by simpa using find?_some found
    have member := mem_of_find?_eq_some found
    simp only [Option.map_some]
    by_cases marked : trimBlank l.value = eventType
    · have somebody : b.lines.any (fun l => l.key == eventKey && trimBlank l.value == eventType) =
          true :=
        any_eq_true.mpr ⟨l, member, by simp [key, marked]⟩
      by_cases reaches : b.Reaches eventKey
      · simp [marked, somebody, reaches, linear_of_trimBlank marked]
      · simp [marked, somebody, reaches]
    · by_cases reaches : b.Reaches eventKey
      · cases read : l.linear
        · simp [marked, reaches, read]
        · simp [marked, reaches, read]
      · simp [marked, reaches]

/-- A single event type line in another case: the server delivers the message to one receiver and
every client keeps its payload readable. -/
def lowerCaseEvent : Block :=
  natsBlock [⟨eventKey, ascii " linear", by decide, by decide, by decide⟩]

theorem lowerCase_disagrees :
    isLinearEvent lowerCaseEvent.bytes.length (lowerCaseEvent.bytes ++ ascii "secret") = true ∧
      Go.isLinear lowerCaseEvent.lines = false ∧ Zig.isLinear lowerCaseEvent.bytes = false ∧
      ¬ Agree lowerCaseEvent (ascii "secret") := by
  have server : isLinearEvent lowerCaseEvent.bytes.length
      (lowerCaseEvent.bytes ++ ascii "secret") = true := by decide
  have go : Go.isLinear lowerCaseEvent.lines = false := by decide
  refine ⟨server, go, by decide, ?_⟩
  intro agree
  rw [Agree, server, go] at agree
  exact absurd agree.1 (by decide)

end LinearNats.Client
