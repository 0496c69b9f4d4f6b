import LinearNats.Server.Header

/-! When the server takes a message for a linear event. -/
namespace LinearNats.Server
open Search List

def linearEventHeader : Bytes := ascii "Nats-Event-Type"
def linearEventType : Bytes := ascii "Linear"

theorem linearEventHeader_plain : PlainKey linearEventHeader :=
  ⟨by decide, by decide, by decide, by decide⟩

def spaces : List Bytes :=
  [[9], [10], [11], [12], [13], [32], [0xC2, 0x85], [0xC2, 0xA0], [0xE1, 0x9A, 0x80],
    [0xE2, 0x80, 0x80], [0xE2, 0x80, 0x81], [0xE2, 0x80, 0x82], [0xE2, 0x80, 0x83],
    [0xE2, 0x80, 0x84], [0xE2, 0x80, 0x85], [0xE2, 0x80, 0x86], [0xE2, 0x80, 0x87],
    [0xE2, 0x80, 0x88], [0xE2, 0x80, 0x89], [0xE2, 0x80, 0x8A], [0xE2, 0x80, 0xA8],
    [0xE2, 0x80, 0xA9], [0xE2, 0x80, 0xAF], [0xE2, 0x81, 0x9F], [0xE3, 0x80, 0x80]]

/-- Removes encodings of `cut` from the front, at most `fuel` of them. -/
def trimStart (cut : List Bytes) : Nat → Bytes → Bytes
  | 0, s => s
  | fuel + 1, s =>
    match cut.find? (fun w => w <+: s) with
    | none => s
    | some w => trimStart cut fuel (s.drop w.length)

/-- `strings.TrimSpace`: no encoding is longer than the text it is removed from. -/
def trimSpace (s : Bytes) : Bytes :=
  let s := trimStart spaces s.length s
  (trimStart (spaces.map List.reverse) s.length s.reverse).reverse

def toLower (c : UInt8) : UInt8 := if 65 ≤ c ∧ c ≤ 90 then c + 32 else c

/-- `strings.EqualFold` against a text of ASCII letters other than k and s, which are the only
ones with a fold outside ASCII. -/
def equalFold (s t : Bytes) : Bool := s.map toLower == t.map toLower

/-- `hdr` is `c.pa.hdr`, the length of the header block at the front of the message. -/
def isLinearEvent (hdr : Int) (msg : Bytes) : Bool :=
  if hdr ≤ 0 ∨ hdr > msg.length then false
  else
    equalFold (trimSpace ((sliceHeader linearEventHeader (msg.take hdr.toNat)).getD []))
      linearEventType

def Line.linear (l : Line) : Bool :=
  equalFold (trimSpace (l.value.dropWhile (fun c => c == blank))) linearEventType

theorem isLinearEvent_block (b : Block) (payload : Bytes) :
    isLinearEvent b.bytes.length (b.bytes ++ payload) =
      (if b.Reaches linearEventHeader then
        b.lines.find? (fun l => l.key = linearEventHeader) else none).any Line.linear := by
  have size : ¬ ((b.bytes.length : Int) ≤ 0 ∨
      (b.bytes.length : Int) > (b.bytes ++ payload).length) := by
    simp only [Block.bytes, crlf, length_append, length_cons, length_nil]
    omega
  rw [isLinearEvent, if_neg size, Int.toNat_natCast, take_left,
    sliceHeader_block linearEventHeader_plain, ← b.reach_line]
  cases b.reach linearEventHeader with
  | none => rfl
  | some r => rfl

theorem trimStart_stop {cut : List Bytes} {s : Bytes} (stop : ∀ w ∈ cut, ¬ w <+: s) (fuel : Nat) :
    trimStart cut fuel s = s := by
  cases fuel with
  | zero => rfl
  | succ fuel =>
    have none : cut.find? (fun w => w <+: s) = none := by
      simpa [find?_eq_none] using stop
    simp [trimStart, none]

theorem trimStart_bytes {cut : List Bytes} {blanks : List UInt8}
    (single : ∀ c ∈ blanks, ∀ s, cut.find? (fun w => w <+: c :: s) = some [c]) {s : Bytes}
    (stop : ∀ w ∈ cut, ¬ w <+: s) {before : Bytes} (only : ∀ c ∈ before, c ∈ blanks) (fuel : Nat)
    (enough : before.length ≤ fuel) : trimStart cut fuel (before ++ s) = s := by
  induction before generalizing fuel with
  | nil => exact trimStart_stop stop fuel
  | cons c before ih =>
    cases fuel with
    | zero => simp at enough
    | succ fuel =>
      have found := single c (only c mem_cons_self) (before ++ s)
      simp only [cons_append, trimStart, found]
      exact ih (fun d hd => only d (mem_cons_of_mem c hd)) fuel (by simpa using enough)

def blanks : List UInt8 := [32, 9]

theorem spaces_single : ∀ c ∈ blanks, ∀ s, spaces.find? (fun w => w <+: c :: s) = some [c] := by
  intro c hc s
  simp only [blanks, mem_cons, not_mem_nil, or_false] at hc
  rcases hc with rfl | rfl <;> simp [spaces, cons_prefix_cons]

theorem reversed_single : ∀ c ∈ blanks, ∀ s,
    (spaces.map List.reverse).find? (fun w => w <+: c :: s) = some [c] := by
  intro c hc s
  simp only [blanks, mem_cons, not_mem_nil, or_false] at hc
  rcases hc with rfl | rfl <;> simp [spaces, cons_prefix_cons]

theorem trimSpace_blanks {before after : Bytes} (left : ∀ c ∈ before, c ∈ blanks)
    (right : ∀ c ∈ after, c ∈ blanks) :
    trimSpace (before ++ (linearEventType ++ after)) = linearEventType := by
  have front : ∀ w ∈ spaces, ¬ w <+: linearEventType ++ after := by
    simp [spaces, linearEventType, ascii, cons_prefix_cons]
  have back : ∀ w ∈ spaces.map List.reverse, ¬ w <+: linearEventType.reverse := by decide
  have start := trimStart_bytes spaces_single front left
    (before ++ (linearEventType ++ after)).length (by simp)
  simp only [trimSpace]
  rw [start, reverse_append, trimStart_bytes reversed_single back (by simpa using right) _
    (by simp), reverse_reverse]

end LinearNats.Server
