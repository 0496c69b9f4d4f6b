import LinearNats.Chunked
import LinearNats.Client.Incoming
import LinearNats.NumberText

/-! What the Zig client reads from its connection: `connect` takes the INFO line, then `readLoop`
handles one operation after the other. Each of them has a reader of its own. -/
namespace LinearNats.Client.Zig
open Server Chunked List

/-! ### The reader -/

abbrev Socket := Source UInt8
abbrev SocketReader := Reader UInt8

inductive ReadError
  | bufferFull
  deriving DecidableEq

def bufLen : Nat := 4096

namespace SocketReader

/-- `none` is `EndOfStream`. -/
def readByte (r : SocketReader) : Option UInt8 × SocketReader := r.next bufLen

def readUntil (delimiter : UInt8) :
    Nat → Bytes → SocketReader → Except ReadError (Option Bytes) × SocketReader
  | 0, _, r => (.error .bufferFull, r)
  | room + 1, out, r =>
    match readByte r with
    | (none, r) => (.ok (if out = [] then none else some out), r)
    | (some b, r) =>
      if b = delimiter then (.ok (some out), r) else readUntil delimiter room (out ++ [b]) r

def readUntilDelimiterOrEof (r : SocketReader) (outLen : Nat) (delimiter : UInt8) :
    Except ReadError (Option Bytes) × SocketReader :=
  readUntil delimiter outLen [] r

def readAll : Nat → SocketReader → Option Bytes × SocketReader
  | 0, r => (some [], r)
  | n + 1, r =>
    match readByte r with
    | (none, r) => (none, r)
    | (some b, r) =>
      match readAll n r with
      | (none, r) => (none, r)
      | (some bytes, r) => (some (b :: bytes), r)

end SocketReader

/-! ### Text -/

def tokenize (line : Bytes) : List Bytes := (line.splitOn blank).filter (fun token => token ≠ [])

/-- `std.fmt.parseInt` for a u64 or usize: digits may be separated by underscores, and only a zero may be
negative. -/
def parseInt (text : List Char) : Option Nat :=
  let (negative, digits) := NumberText.splitSign text
  if digits.head? = some '_' ∨ digits.getLast? = some '_' then none
  else (NumberText.natural (digits.filter (fun c => c ≠ '_'))).filter (fun n =>
    if negative then n = 0 else n < 2 ^ 64)

def parseBytes (text : Bytes) : Option Nat := parseInt (text.map (fun b => Char.ofNat b.toNat))

/-! ### The client -/

structure LinearMessage where
  subject : Bytes
  reply : Option Bytes
  headers : List (Bytes × Bytes)
  payload : Bytes
  isLinear : Bool
  ttlMs : Option Nat
  deriving DecidableEq

/-- What the client does: bytes it writes, and calls of a callback. -/
inductive Action (C : Type)
  | write (bytes : Bytes)
  | callback (callback : C) (msg : LinearMessage)
  deriving DecidableEq

/-- What other threads do meanwhile, by the turns of the loop: the callback that is subscribed
under a sid, and whether the client is closed. -/
structure Env (C : Type) where
  subscriptions : Nat → Bytes → Option C
  closed : Nat → Bool

def ttlKey : Bytes := ascii linearTTLHeader

/-- The loop of `handleMsg` over the headers. -/
def LinearMessage.of (subject : Bytes) (reply : Option Bytes) (headers : List (Bytes × Bytes))
    (payload : Bytes) : LinearMessage where
  subject := subject
  reply := reply
  headers := headers
  payload := payload
  isLinear := headers.any (fun h => h.1 == eventKey && h.2 == eventType)
  ttlMs := headers.foldl (fun ttlMs h => if h.1 = ttlKey then parseBytes h.2 else ttlMs) none

section

variable {C : Type}

def handleMsg (env : Env C) (turn : Nat) (subject sid : Bytes) (reply : Option Bytes)
    (headers : Option (List (Bytes × Bytes))) (payload : Bytes) : List (Action C) :=
  match env.subscriptions turn sid with
  | none => []
  | some callback => [.callback callback (.of subject reply (headers.getD []) payload)]

/-- How a turn of the loop ends: with a `break`, with a slice out of bounds, or in the next one. -/
inductive Turn (C : Type)
  | stop
  | crash
  | go (actions : List (Action C)) (reader : SocketReader)

def receiveMsg (env : Env C) (turn : Nat) (subject sid : Bytes) (reply : Option Bytes)
    (sizeStr : Bytes) (r : SocketReader) : Turn C :=
  match parseBytes sizeStr with
  | none => .go [] r
  | some size =>
    match SocketReader.readAll size r with
    | (none, r) => .go [] r
    | (some payload, r) =>
      match SocketReader.readAll 2 r with
      | (none, r) => .go [] r
      | (some _, r) => .go (handleMsg env turn subject sid reply none payload) r

def onMsg (env : Env C) (turn : Nat) (parts : List Bytes) (r : SocketReader) : Turn C :=
  match parts with
  | subject :: sid :: nextPart :: sizePart :: _ =>
    receiveMsg env turn subject sid (some nextPart) sizePart r
  | [subject, sid, nextPart] => receiveMsg env turn subject sid none nextPart r
  | _ => .go [] r

def receiveHmsg (env : Env C) (turn : Nat) (subject sid : Bytes) (reply : Option Bytes)
    (hdrSizeStr totalSizeStr : Bytes) (r : SocketReader) : Turn C :=
  match parseBytes hdrSizeStr with
  | none => .go [] r
  | some hdrSize =>
    match parseBytes totalSizeStr with
    | none => .go [] r
    | some totalSize =>
      match SocketReader.readAll totalSize r with
      | (none, r) => .go [] r
      | (some full, r) =>
        match SocketReader.readAll 2 r with
        | (none, r) => .go [] r
        | (some _, r) =>
          if totalSize < hdrSize then .crash
          else .go (handleMsg env turn subject sid reply (some (readHeaders (full.take hdrSize)))
            (full.drop hdrSize)) r

def onHmsg (env : Env C) (turn : Nat) (parts : List Bytes) (r : SocketReader) : Turn C :=
  match parts with
  | subject :: sid :: p3 :: totalSizeStr :: totalSizePart :: _ =>
    receiveHmsg env turn subject sid (some p3) totalSizeStr totalSizePart r
  | [subject, sid, p3, totalSizeStr] => receiveHmsg env turn subject sid none p3 totalSizeStr r
  | _ => .go [] r

def trimCr (line : Bytes) : Bytes := if line.getLast? = some 13 then line.dropLast else line

def onLine (env : Env C) (turn : Nat) (line : Bytes) (r : SocketReader) : Turn C :=
  if line.length = 0 then .go [] r
  else
    match tokenize line with
    | [] => .go [] r
    | op :: parts =>
      if op = ascii "PING" then .go [.write (ascii "PONG\r\n")] r
      else if op = ascii "MSG" then onMsg env turn parts r
      else if op = ascii "HMSG" then onHmsg env turn parts r
      else .go [] r

def takeTurn (env : Env C) (turn : Nat) (r : SocketReader) : Turn C :=
  if env.closed turn then .stop
  else
    match r.readUntilDelimiterOrEof bufLen 10 with
    | (.error _, _) => .stop
    | (.ok none, _) => .stop
    | (.ok (some line), r) => onLine env turn (trimCr line) r

inductive Halt
  | fuel
  | crash
  | connect (err : ReadError)
  deriving DecidableEq

def readLoop (env : Env C) : Nat → Nat → SocketReader → Except Halt (List (Action C))
  | 0, _, _ => .error .fuel
  | fuel + 1, turn, r =>
    match takeTurn env turn r with
    | .stop => .ok []
    | .crash => .error .crash
    | .go actions r => (actions ++ ·) <$> readLoop env fuel (turn + 1) r

def connectLine : Bytes :=
  ascii "CONNECT \x7b\"verbose\":false,\"pedantic\":false,\"tls_required\":false,\"headers\":true\x7d\r\n"

/-- `connect` up to the thread it spawns. Its reader ends with it. -/
def connect (socket : Socket) : Except ReadError Socket :=
  match SocketReader.readUntilDelimiterOrEof (.init socket) bufLen 10 with
  | (.error err, _) => .error err
  | (.ok _, r) => .ok r.source

/-- `connect` and then `readLoop`, on the bytes the server sends until it closes the connection. -/
def session (env : Env C) (fuel : Nat) (split : Splitting) (bytes : Bytes) :
    Except Halt (List (Action C)) :=
  match connect ⟨bytes, split, 0⟩ with
  | .error err => .error (.connect err)
  | .ok socket => (.write connectLine :: ·) <$> readLoop env fuel 0 (.init socket)

end

/-! ### What the server sends -/

structure Field where
  text : Bytes
  named : text ≠ []
  plain : blank ∉ text ∧ 13 ∉ text ∧ 10 ∉ text

def decimal (n : Nat) : Bytes := ascii (Nat.repr n)

def controlLine (fields : List Bytes) : Bytes := [blank].intercalate fields

structure Address where
  subject : Field
  sid : Field
  reply : Option Field

def Address.fields (a : Address) : List Bytes :=
  [a.subject.text, a.sid.text] ++ (a.reply.map Field.text).toList

/-- The line and its CRLF fit into the buffer, and the size is one of this machine. -/
structure Msg extends Address where
  payload : Bytes
  fits : payload.length < 2 ^ 64
  short : (controlLine
    (ascii "MSG" :: toAddress.fields ++ [decimal payload.length])).length + 2 ≤ bufLen

structure Hmsg extends Address where
  block : Block
  payload : Bytes
  fits : block.bytes.length + payload.length < 2 ^ 64
  short : (controlLine (ascii "HMSG" :: toAddress.fields ++
    [decimal block.bytes.length, decimal (block.bytes.length + payload.length)])).length + 2 ≤ bufLen

inductive Operation
  | ping
  | msg (m : Msg)
  | hmsg (m : Hmsg)

namespace Operation

def fields : Operation → List Bytes
  | .ping => [ascii "PING"]
  | .msg m => ascii "MSG" :: m.toAddress.fields ++ [decimal m.payload.length]
  | .hmsg m => ascii "HMSG" :: m.toAddress.fields ++
      [decimal m.block.bytes.length, decimal (m.block.bytes.length + m.payload.length)]

def body : Operation → Bytes
  | .ping => []
  | .msg m => m.payload ++ crlf
  | .hmsg m => m.block.bytes ++ m.payload ++ crlf

def bytes (op : Operation) : Bytes := controlLine op.fields ++ crlf ++ op.body

def expected {C : Type} (env : Env C) (turn : Nat) : Operation → List (Action C)
  | .ping => [.write (ascii "PONG\r\n")]
  | .msg m =>
    ((env.subscriptions turn m.sid.text).map (fun callback =>
      .callback callback (.of m.subject.text (m.reply.map Field.text) [] m.payload))).toList
  | .hmsg m =>
    ((env.subscriptions turn m.sid.text).map (fun callback =>
      .callback callback (.of m.subject.text (m.reply.map Field.text)
        (m.block.lines.map (fun l => (l.key, trimBlank l.value))) m.payload))).toList

end Operation

structure Info where
  json : Bytes
  plain : 10 ∉ json
  short : json.length + 7 ≤ bufLen

def Info.bytes (info : Info) : Bytes := ascii "INFO " ++ info.json ++ crlf

def expectedFrom {C : Type} (env : Env C) : Nat → List Operation → List (Action C)
  | _, [] => []
  | turn, op :: ops => op.expected env turn ++ expectedFrom env (turn + 1) ops

/-- The stream is read whole, whatever operations follow the INFO line. -/
def ReadsWhole (C : Type) (info : Info) (split : Splitting) : Prop :=
  ∀ (env : Env C) (ops : List Operation), (∀ turn, env.closed turn = false) →
    ∀ fuel > ops.length,
      session env fuel split (info.bytes ++ ops.flatMap Operation.bytes) =
        .ok (.write connectLine :: expectedFrom env 0 ops)

/-! ### Reading in pieces does not matter -/

theorem bufLen_pos : 0 < bufLen := by decide

theorem readByte_cons {r : SocketReader} {b : UInt8} {rest : Bytes} (content : r.content = b :: rest) :
    r.readByte = (some b, r.skip bufLen 1) := by
  have first := (Reader.next_spec bufLen_pos r).1
  rw [content] at first
  exact Prod.ext first rfl

theorem readByte_nil {r : SocketReader} (content : r.content = []) :
    (SocketReader.readByte r).1 = none := by
  have first := (Reader.next_spec bufLen_pos r).1
  rw [content] at first
  exact first

theorem content_skip_append {r : SocketReader} {bytes rest : Bytes}
    (content : r.content = bytes ++ rest) : (r.skip bufLen bytes.length).content = rest := by
  rw [Reader.content_skip bufLen_pos, content, drop_left]

theorem readUntil_line {delimiter : UInt8} {line rest : Bytes} (plain : delimiter ∉ line)
    {room : Nat} (fits : line.length < room) {out : Bytes} {r : SocketReader}
    (content : r.content = line ++ delimiter :: rest) :
    SocketReader.readUntil delimiter room out r =
      (.ok (some (out ++ line)), r.skip bufLen (line.length + 1)) := by
  induction line generalizing room out r with
  | nil =>
    obtain ⟨room, rfl⟩ := Nat.exists_eq_succ_of_ne_zero (Nat.ne_zero_of_lt fits)
    rw [SocketReader.readUntil, readByte_cons content]
    dsimp only
    rw [if_pos rfl, append_nil]
    rfl
  | cons b line ih =>
    obtain ⟨room, rfl⟩ := Nat.exists_eq_succ_of_ne_zero (Nat.ne_zero_of_lt fits)
    have other : b ≠ delimiter := fun same => plain (same ▸ mem_cons_self)
    have after : (r.skip bufLen 1).content = line ++ delimiter :: rest :=
      @content_skip_append r [b] _ content
    rw [SocketReader.readUntil, readByte_cons content]
    dsimp only
    rw [if_neg other, ih (fun inside => plain (mem_cons_of_mem b inside))
      (Nat.lt_of_succ_lt_succ fits) after, append_assoc]
    rfl

theorem readUntil_nil {delimiter : UInt8} {room : Nat} {r : SocketReader} (content : r.content = []) :
    (SocketReader.readUntil delimiter (room + 1) [] r).1 = .ok none := by
  have ended := readByte_nil content
  rw [SocketReader.readUntil]
  split
  · rfl
  next read =>
    rw [read] at ended
    cases ended

theorem readAll_append {bytes rest : Bytes} {r : SocketReader} (content : r.content = bytes ++ rest) :
    SocketReader.readAll bytes.length r = (some bytes, r.skip bufLen bytes.length) := by
  induction bytes generalizing r with
  | nil => rfl
  | cons b bytes ih =>
    have after : (r.skip bufLen 1).content = bytes ++ rest :=
      @content_skip_append r [b] _ content
    rw [length_cons, SocketReader.readAll, readByte_cons content]
    dsimp only
    rw [ih after]
    rfl

/-! ### Control lines -/

theorem tokenize_controlLine {fields : List Bytes} (filled : fields ≠ [])
    (named : ∀ f ∈ fields, f ≠ []) (plain : ∀ f ∈ fields, blank ∉ f) :
    tokenize (controlLine fields) = fields := by
  rw [tokenize, controlLine, splitOn_intercalate blank plain filled, filter_eq_self]
  intro f member
  exact decide_eq_true (named f member)

theorem notMem_controlLine {c : UInt8} (other : c ≠ blank) {fields : List Bytes}
    (plain : ∀ f ∈ fields, c ∉ f) : c ∉ controlLine fields := by
  induction fields with
  | nil => exact not_mem_nil
  | cons f fields ih =>
    have first := plain f mem_cons_self
    cases fields with
    | nil =>
      rw [controlLine, intercalate_singleton]
      exact first
    | cons g fields =>
      have later := ih (fun h member => plain h (mem_cons_of_mem f member))
      rw [controlLine, intercalate_cons_cons, mem_append, mem_append, mem_singleton]
      rintro ((inside | inside) | inside)
      · exact first inside
      · exact other inside
      · exact later inside

/-! ### Sizes -/

def digitByte (c : Char) : UInt8 := UInt8.ofNat c.toNat

theorem digitByte_toNat {c : Char} (digit : c.isDigit = true) :
    (digitByte c).toNat = c.toNat ∧ 48 ≤ c.toNat ∧ c.toNat ≤ 57 := by
  have range := NumberText.toNat_of_isDigit digit
  rw [digitByte, UInt8.toNat_ofNat_of_lt' (by show c.toNat < 256; omega)]
  exact ⟨rfl, range⟩

theorem decimal_eq (n : Nat) : decimal n = (Nat.toDigits 10 n).map digitByte := by
  rw [decimal, ascii, Nat.repr, String.toList_ofList]
  rfl

theorem mem_decimal {n : Nat} {b : UInt8} (member : b ∈ decimal n) :
    48 ≤ b.toNat ∧ b.toNat ≤ 57 := by
  rw [decimal_eq] at member
  obtain ⟨c, inside, rfl⟩ := mem_map.mp member
  have range := digitByte_toNat (all_eq_true.mp (NumberText.all_digits n) c inside)
  omega

theorem notMem_decimal (n : Nat) {b : UInt8} (other : b.toNat < 48 ∨ 57 < b.toNat) :
    b ∉ decimal n := by
  intro member
  have range := mem_decimal member
  omega

theorem decimal_ne_nil (n : Nat) : decimal n ≠ [] := by
  rw [decimal_eq]
  exact fun empty => Nat.toDigits_ne_nil (map_eq_nil_iff.mp empty)

theorem parseInt_digits {n : Nat} (fits : n < 2 ^ 64) : parseInt (Nat.toDigits 10 n) = some n := by
  have digits : ∀ c ∈ Nat.toDigits 10 n, c.isDigit = true := all_eq_true.mp (NumberText.all_digits n)
  have plain : ∀ c ∈ Nat.toDigits 10 n, c ≠ '_' := by
    rintro c member rfl
    exact absurd (digits _ member) (by decide)
  have ends : ¬ ((Nat.toDigits 10 n).head? = some '_' ∨
      (Nat.toDigits 10 n).getLast? = some '_') := by
    rintro (first | last)
    · exact plain _ (mem_of_head? first) rfl
    · exact plain _ (mem_of_getLast? last) rfl
  have kept : (Nat.toDigits 10 n).filter (fun c => c ≠ '_') = Nat.toDigits 10 n :=
    filter_eq_self.mpr (fun c member => by simpa using plain c member)
  rw [parseInt, NumberText.splitSign_digits]
  simp only [if_neg ends, kept, NumberText.natural_toDigits, Option.filter_some]
  rw [if_pos (by simp; omega)]

theorem parseBytes_decimal {n : Nat} (fits : n < 2 ^ 64) : parseBytes (decimal n) = some n := by
  have same : ∀ c ∈ Nat.toDigits 10 n, ((fun b => Char.ofNat b.toNat) ∘ digitByte) c = c := by
    intro c member
    show Char.ofNat (digitByte c).toNat = c
    rw [(digitByte_toNat (all_eq_true.mp (NumberText.all_digits n) c member)).1, Char.ofNat_toNat]
  rw [parseBytes, decimal_eq, map_map, map_congr_left same, map_id']
  exact parseInt_digits fits

/-! ### One operation -/

theorem Field.ok (f : Field) : f.text ≠ [] ∧ blank ∉ f.text ∧ 10 ∉ f.text :=
  ⟨f.named, f.plain.1, f.plain.2.2⟩

theorem decimal_ok (n : Nat) : decimal n ≠ [] ∧ blank ∉ decimal n ∧ 10 ∉ decimal n :=
  ⟨decimal_ne_nil n, notMem_decimal n (by decide), notMem_decimal n (by decide)⟩

theorem Address.fields_ok (a : Address) : ∀ f ∈ a.fields, f ≠ [] ∧ blank ∉ f ∧ 10 ∉ f := by
  intro f member
  rw [Address.fields, mem_append, mem_cons, mem_singleton, Option.mem_toList,
    Option.map_eq_some_iff] at member
  rcases member with (rfl | rfl) | ⟨reply, _, rfl⟩
  · exact a.subject.ok
  · exact a.sid.ok
  · exact reply.ok

theorem Operation.fields_ok (op : Operation) : ∀ f ∈ op.fields, f ≠ [] ∧ blank ∉ f ∧ 10 ∉ f := by
  cases op with
  | ping => decide
  | msg m =>
    rw [Operation.fields, cons_append, forall_mem_cons, forall_mem_append]
    refine ⟨by decide, m.fields_ok, ?_⟩
    rw [forall_mem_singleton]
    exact decimal_ok _
  | hmsg m =>
    rw [Operation.fields, cons_append, forall_mem_cons, forall_mem_append]
    refine ⟨by decide, m.fields_ok, ?_⟩
    rw [forall_mem_cons, forall_mem_singleton]
    exact ⟨decimal_ok _, decimal_ok _⟩

theorem Operation.short (op : Operation) : (controlLine op.fields).length + 2 ≤ bufLen := by
  cases op with
  | ping => decide
  | msg m => exact m.short
  | hmsg m => exact m.short

theorem Operation.fields_ne_nil (op : Operation) : op.fields ≠ [] := by
  cases op <;> exact cons_ne_nil _ _

theorem trimCr_append (line : Bytes) : trimCr (line ++ [13]) = line := by
  rw [trimCr, getLast?_concat, if_pos rfl, dropLast_concat]

section

variable {C : Type} {env : Env C} {turn : Nat} {r : SocketReader} {rest : Bytes}

theorem onMsg_fields (a : Address) (sizeStr : Bytes) :
    onMsg env turn (a.fields ++ [sizeStr]) r =
      receiveMsg env turn a.subject.text a.sid.text (a.reply.map Field.text) sizeStr r := by
  rw [Address.fields]
  cases a.reply <;> rfl

theorem onHmsg_fields (a : Address) (hdrSizeStr totalSizeStr : Bytes) :
    onHmsg env turn (a.fields ++ [hdrSizeStr, totalSizeStr]) r =
      receiveHmsg env turn a.subject.text a.sid.text (a.reply.map Field.text) hdrSizeStr
        totalSizeStr r := by
  rw [Address.fields]
  cases a.reply <;> rfl

theorem handleMsg_eq (subject sid : Bytes) (reply : Option Bytes)
    (headers : Option (List (Bytes × Bytes))) (payload : Bytes) :
    handleMsg env turn subject sid reply headers payload =
      ((env.subscriptions turn sid).map (fun callback =>
        .callback callback (.of subject reply (headers.getD []) payload))).toList := by
  rw [handleMsg]
  cases env.subscriptions turn sid <;> rfl

theorem receiveMsg_msg (m : Msg) (content : r.content = m.payload ++ crlf ++ rest) :
    receiveMsg env turn m.subject.text m.sid.text (m.reply.map Field.text)
        (decimal m.payload.length) r =
      .go ((Operation.msg m).expected env turn) (r.skip bufLen (m.payload ++ crlf).length) := by
  rw [append_assoc] at content
  rw [receiveMsg, parseBytes_decimal m.fits]
  dsimp only
  rw [readAll_append content]
  dsimp only
  rw [show 2 = crlf.length from rfl, readAll_append (content_skip_append content)]
  dsimp only
  rw [handleMsg_eq, ← Reader.skip_add, ← length_append]
  rfl

theorem receiveHmsg_hmsg (m : Hmsg) (content : r.content = m.block.bytes ++ m.payload ++ crlf ++ rest) :
    receiveHmsg env turn m.subject.text m.sid.text (m.reply.map Field.text)
        (decimal m.block.bytes.length) (decimal (m.block.bytes.length + m.payload.length)) r =
      .go ((Operation.hmsg m).expected env turn)
        (r.skip bufLen (m.block.bytes ++ m.payload ++ crlf).length) := by
  have header : m.block.bytes.length < 2 ^ 64 := Nat.lt_of_le_of_lt (Nat.le_add_right _ _) m.fits
  rw [append_assoc (m.block.bytes ++ m.payload)] at content
  rw [receiveHmsg, parseBytes_decimal header, parseBytes_decimal m.fits]
  dsimp only
  rw [← length_append, readAll_append content]
  dsimp only
  rw [show 2 = crlf.length from rfl, readAll_append (content_skip_append content)]
  dsimp only
  rw [if_neg (by rw [length_append]; omega), take_left, drop_left,
    readHeaders_block, handleMsg_eq, ← Reader.skip_add, ← length_append]
  rfl

theorem onLine_operation (op : Operation) (content : r.content = op.body ++ rest) :
    onLine env turn (controlLine op.fields) r =
      .go (op.expected env turn) (r.skip bufLen op.body.length) := by
  have tokens := tokenize_controlLine op.fields_ne_nil (fun f member => (op.fields_ok f member).1)
    (fun f member => (op.fields_ok f member).2.1)
  have filled : (controlLine op.fields).length ≠ 0 := by
    intro empty
    rw [length_eq_zero_iff] at empty
    rw [empty] at tokens
    exact op.fields_ne_nil tokens.symm
  rw [onLine, if_neg filled, tokens]
  cases op with
  | ping => rfl
  | msg m =>
    rw [Operation.fields, cons_append]
    dsimp only
    rw [if_neg (by decide), if_pos rfl, onMsg_fields]
    exact receiveMsg_msg m content
  | hmsg m =>
    rw [Operation.fields, cons_append]
    dsimp only
    rw [if_neg (by decide), if_neg (by decide), if_pos rfl, onHmsg_fields]
    exact receiveHmsg_hmsg m content

theorem takeTurn_line (live : env.closed turn = false) {line : Bytes} (plain : 10 ∉ line)
    (short : line.length < bufLen) (content : r.content = line ++ 10 :: rest) :
    takeTurn env turn r = onLine env turn (trimCr line) (r.skip bufLen (line.length + 1)) := by
  rw [takeTurn, if_neg (by rw [live]; decide), SocketReader.readUntilDelimiterOrEof,
    readUntil_line plain short content]
  rfl

theorem notMem_cr {line : Bytes} (plain : 10 ∉ line) : 10 ∉ line ++ [13] := by
  rw [mem_append]
  rintro (inside | inside)
  · exact plain inside
  · exact absurd inside (by decide)

theorem append_crlf (line rest : Bytes) : line ++ crlf ++ rest = (line ++ [13]) ++ 10 :: rest := by
  rw [append_assoc, append_assoc]
  rfl

theorem takeTurn_operation (live : env.closed turn = false) (op : Operation)
    (content : r.content = op.bytes ++ rest) :
    takeTurn env turn r = .go (op.expected env turn) (r.skip bufLen op.bytes.length) := by
  have plain := notMem_controlLine (c := 10) (by decide) (fun f member => (op.fields_ok f member).2.2)
  have short := op.short
  have body : (r.skip bufLen (controlLine op.fields ++ crlf).length).content = op.body ++ rest := by
    rw [Operation.bytes, append_assoc] at content
    exact content_skip_append content
  rw [Operation.bytes, append_assoc, append_crlf] at content
  rw [takeTurn_line live (notMem_cr plain) (by rw [length_append]; exact short) content,
    trimCr_append, length_append, add_assoc]
  rw [length_append] at body
  rw [show [(13 : UInt8)].length + 1 = crlf.length from rfl, onLine_operation op body,
    ← Reader.skip_add, Operation.bytes, length_append, length_append]

theorem takeTurn_nil (content : r.content = []) : takeTurn env turn r = .stop := by
  have ended : (SocketReader.readUntil 10 bufLen [] r).1 = .ok none := readUntil_nil content
  rw [takeTurn]
  split
  · rfl
  split
  · rfl
  · rfl
  next read =>
    rw [SocketReader.readUntilDelimiterOrEof] at read
    rw [read] at ended
    cases ended

theorem readLoop_nil {fuel : Nat} (content : r.content = []) :
    readLoop env (fuel + 1) turn r = .ok [] := by
  rw [readLoop, takeTurn_nil content]

theorem readLoop_operations (live : ∀ turn, env.closed turn = false) {ops : List Operation}
    {fuel : Nat} (enough : ops.length < fuel) (content : r.content = ops.flatMap Operation.bytes) :
    readLoop env fuel turn r = .ok (expectedFrom env turn ops) := by
  induction ops generalizing fuel turn r with
  | nil =>
    obtain ⟨fuel, rfl⟩ := Nat.exists_eq_succ_of_ne_zero (Nat.ne_zero_of_lt enough)
    exact readLoop_nil content
  | cons op ops ih =>
    obtain ⟨fuel, rfl⟩ := Nat.exists_eq_succ_of_ne_zero (Nat.ne_zero_of_lt enough)
    rw [flatMap_cons] at content
    rw [readLoop, takeTurn_operation (live turn) op content]
    dsimp only
    rw [ih (Nat.lt_of_succ_lt_succ enough) (content_skip_append content)]
    rfl

/-! ### The whole session -/

theorem Info.connect_eq (info : Info) (split : Splitting) (rest : Bytes) :
    connect ⟨info.bytes ++ rest, split, 0⟩ =
      .ok ((Reader.init ⟨info.bytes ++ rest, split, 0⟩).skip bufLen info.bytes.length).source := by
  have content : (Reader.init ⟨info.bytes ++ rest, split, 0⟩).content =
      ((ascii "INFO " ++ info.json) ++ [13]) ++ 10 :: rest := append_crlf _ _
  have plain : 10 ∉ ascii "INFO " ++ info.json := by
    rw [mem_append]
    rintro (inside | inside)
    · exact absurd inside (by decide)
    · exact info.plain inside
  have short : ((ascii "INFO " ++ info.json) ++ [13]).length < bufLen := by
    have fits := info.short
    rw [length_append, length_append]
    show 5 + info.json.length + 1 < bufLen
    omega
  have size : info.bytes.length = ((ascii "INFO " ++ info.json) ++ [13]).length + 1 := by
    simp only [Info.bytes, length_append]
    rfl
  rw [connect, SocketReader.readUntilDelimiterOrEof, readUntil_line (notMem_cr plain) short content,
    size]

/-- What is left of a PING whose first bytes are lost is no operation. -/
theorem readLoop_cut_ping (live : ∀ turn, env.closed turn = false) {d fuel : Nat}
    (content : r.content = Operation.ping.bytes.drop (d + 1)) :
    readLoop env (fuel + 2) turn r = .ok [] := by
  by_cases inside : d < 5
  · have cut : Operation.ping.bytes.drop (d + 1) = (ascii "PING\r").drop (d + 1) ++ 10 :: [] := by
      interval_cases d <;> rfl
    have plain : 10 ∉ (ascii "PING\r").drop (d + 1) :=
      fun member => absurd ((drop_sublist _ _).subset member) (by decide)
    have short : ((ascii "PING\r").drop (d + 1)).length < bufLen := by
      rw [length_drop]
      exact lt_of_le_of_lt (Nat.sub_le _ _) (by decide)
    rw [cut] at content
    have silent : ∀ r : SocketReader,
        onLine env turn (trimCr ((ascii "PING\r").drop (d + 1))) r = .go [] r := by
      interval_cases d <;> exact fun r => rfl
    have after : (r.skip bufLen (((ascii "PING\r").drop (d + 1)).length + 1)).content = [] := by
      rw [Reader.content_skip bufLen_pos, content]
      exact drop_of_length_le (by rw [length_append]; exact le_refl _)
    rw [readLoop, takeTurn_line (live turn) plain short content, silent]
    dsimp only
    rw [readLoop_nil after]
    rfl
  · have gone : Operation.ping.bytes.drop (d + 1) = [] :=
      drop_of_length_le (by show 6 ≤ d + 1; omega)
    exact readLoop_nil (content.trans gone)

end

/-- The stream is read whole exactly if one of the reads ends with the INFO line. -/
theorem zig_reads_whole_iff (C : Type) (info : Info) (split : Splitting) :
    ReadsWhole C info split ↔ split.EndsAt bufLen info.bytes.length := by
  have took : ∀ rest, Took bufLen split (info.bytes ++ rest) info.bytes.length
      ((Reader.init ⟨info.bytes ++ rest, split, 0⟩).skip bufLen info.bytes.length) :=
    fun rest => took_skip bufLen_pos (by rw [length_append]; exact Nat.le_add_right _ _)
  constructor
  · intro whole
    by_contra inside
    obtain ⟨d, left⟩ := (took Operation.ping.bytes).rest_of_not_endsAt inside
    rw [drop_length_add_append] at left
    let env : Env C := ⟨fun _ _ => none, fun _ => false⟩
    have lost := @readLoop_cut_ping C env 0 (.init _) (fun _ => rfl) d 0 left
    have answered := whole env [.ping] (fun _ => rfl) 2 (by decide)
    rw [session, flatMap_singleton, info.connect_eq] at answered
    dsimp only at answered
    rw [lost] at answered
    exact absurd (List.cons.inj (Except.ok.inj answered)).2 nofun
  · intro ends env ops live fuel enough
    have left := (took (ops.flatMap Operation.bytes)).rest_of_endsAt bufLen_pos ends
    rw [drop_left] at left
    rw [session, info.connect_eq]
    dsimp only
    rw [@readLoop_operations C env 0 (.init _) live ops fuel enough left]
    rfl

/-- The first read gives the INFO line and the PING behind it. -/
theorem ping_read_ahead_lost :
    ∃ info : Info, ¬ ReadsWhole Unit info ⟨fun _ => 4096, fun _ => by decide⟩ := by
  refine ⟨⟨ascii "\x7b\x7d", by decide, by decide⟩, fun whole => ?_⟩
  have answered := whole ⟨fun _ _ => none, fun _ => false⟩ [.ping] (fun _ => rfl) 2 (by decide)
  exact absurd answered (by decide +kernel)

end LinearNats.Client.Zig
