import LinearNats.Sublist.Paths

/-! The topics of MQTT messages as subjects. -/
namespace LinearNats.Mqtt
open Server Sublists List

def mqttTopicLevelSep : UInt8 := 47
def mqttSingleLevelWC : UInt8 := 43
def mqttMultiLevelWC : UInt8 := 35

inductive Error where
  | topicIsEmpty
  | emptyWillTopic
  | invalidUtf8 (field : String) (topic : Bytes)
  | nullCharacter (field : String) (topic : Bytes)
  | unsupportedCharacters
  | wildcardsNotAllowed (topic : Bytes)
  deriving DecidableEq

/-- `utf8.Valid`: the byte ranges of well-formed encodings, by the first byte. -/
def utf8Valid : Bytes → Bool
  | [] => true
  | a :: rest =>
    let tail (b : UInt8) : Bool := 0x80 ≤ b && b ≤ 0xBF
    if a < 0x80 then utf8Valid rest
    else if 0xC2 ≤ a && a ≤ 0xDF then
      match rest with
      | b :: rest => tail b && utf8Valid rest
      | _ => false
    else if 0xE0 ≤ a && a ≤ 0xEF then
      match rest with
      | b :: c :: rest =>
        (if a = 0xE0 then 0xA0 ≤ b && b ≤ 0xBF else if a = 0xED then 0x80 ≤ b && b ≤ 0x9F else tail b) &&
          tail c && utf8Valid rest
      | _ => false
    else if 0xF0 ≤ a && a ≤ 0xF4 then
      match rest with
      | b :: c :: d :: rest =>
        (if a = 0xF0 then 0x90 ≤ b && b ≤ 0xBF else if a = 0xF4 then 0x80 ≤ b && b ≤ 0x8F else tail b) &&
          tail c && tail d && utf8Valid rest
      | _ => false
    else false

def mqttValidateTopic (topic : Bytes) (field : String) : Except Error Unit :=
  if !utf8Valid topic then .error (.invalidUtf8 field topic)
  else if 0 ∈ topic then .error (.nullCharacter field topic)
  else .ok ()

/-- The variables of the loop: `res` is the topic itself until the first change, of which the first
`j` bytes are meant, and then a copy. -/
structure Conversion where
  cp : Bool
  res : Bytes
  j : Nat

namespace Conversion

def makeCopy (mt : Bytes) (i : Nat) (v : Conversion) : Conversion :=
  if v.cp then v else { v with cp := true, res := mt.take i }

def append (v : Conversion) (bytes : Bytes) : Conversion :=
  { v with res := v.res ++ bytes, j := v.j + bytes.length }

def lastIsSep (v : Conversion) : Bool := v.res[v.j - 1]? == some btsep

end Conversion

def conversionLoop (mt : Bytes) (wcOk : Bool) : Nat → Bytes → Conversion → Except Error Conversion
  | _, [], v => .ok v
  | i, c :: rest, v =>
    if c = mqttTopicLevelSep then
      if i = 0 || v.lastIsSep then
        conversionLoop mt wcOk (i + 1) rest
          ((v.makeCopy mt 0).append [mqttTopicLevelSep, btsep])
      else if rest = [] || rest.head? == some mqttTopicLevelSep then
        conversionLoop mt wcOk (i + 1) rest ((v.makeCopy mt i).append [btsep, mqttTopicLevelSep])
      else conversionLoop mt wcOk (i + 1) rest ((v.makeCopy mt i).append [btsep])
    else if c = 32 then .error .unsupportedCharacters
    else if c = 0x7f then .error .unsupportedCharacters
    else if c = btsep then
      conversionLoop mt wcOk (i + 1) rest
        ((v.makeCopy mt i).append [mqttTopicLevelSep, mqttTopicLevelSep])
    else if c = mqttSingleLevelWC ∨ c = mqttMultiLevelWC then
      if !wcOk then .error (.wildcardsNotAllowed mt)
      else if c = mqttSingleLevelWC then
        conversionLoop mt wcOk (i + 1) rest ((v.makeCopy mt i).append [pwc])
      else conversionLoop mt wcOk (i + 1) rest ((v.makeCopy mt i).append [fwc])
    else if v.cp then conversionLoop mt wcOk (i + 1) rest (v.append [c])
    else conversionLoop mt wcOk (i + 1) rest { v with j := v.j + 1 }

def mqttToNATSSubjectConversion (mt : Bytes) (wcOk : Bool) : Except Error Bytes :=
  (conversionLoop mt wcOk 0 mt ⟨false, mt, 0⟩).map (fun v =>
    if v.cp && v.lastIsSep then (v.append [mqttTopicLevelSep]).res.take (v.j + 1)
    else v.res.take v.j)

def mqttTopicToNATSPubSubject (mt : Bytes) : Except Error Bytes :=
  mqttToNATSSubjectConversion mt false

def parseTopic (empty : Error) (field : String) (topic : Bytes) : Except Error Bytes := do
  if topic = [] then throw empty
  mqttValidateTopic topic field
  mqttTopicToNATSPubSubject topic

def pubSubject (topic : Bytes) : Except Error Bytes := parseTopic .topicIsEmpty "topic" topic

def willSubject (topic : Bytes) : Except Error Bytes :=
  parseTopic .emptyWillTopic "Will topic" topic

/-! ### What the loop writes -/

/-- What is written for the rest of a topic after this last byte. -/
def converted : Option UInt8 → Bytes → Bytes
  | last, [] => if last = some btsep then [mqttTopicLevelSep] else []
  | last, c :: rest =>
    if c = mqttTopicLevelSep then
      if last = none ∨ last = some btsep then
        mqttTopicLevelSep :: btsep :: converted (some btsep) rest
      else if rest = [] ∨ rest.head? = some mqttTopicLevelSep then
        btsep :: mqttTopicLevelSep :: converted (some mqttTopicLevelSep) rest
      else btsep :: converted (some btsep) rest
    else if c = btsep then
      mqttTopicLevelSep :: mqttTopicLevelSep :: converted (some mqttTopicLevelSep) rest
    else c :: converted (some c) rest

namespace Conversion

def out (v : Conversion) : Bytes := v.res.take v.j

structure Ok (mt front : Bytes) (v : Conversion) : Prop where
  copied : v.cp = true → v.res.length = v.j
  original : v.cp = false → v.res = mt ∧ v.j = front.length ∧ btsep ∉ front
  started : v.out = [] ↔ front = []

variable {mt front rest : Bytes} {v : Conversion}

theorem Ok.length (ok : Ok mt front v) (whole : mt = front ++ rest) : v.out.length = v.j := by
  rw [out, length_take]
  cases h : v.cp with
  | true => rw [ok.copied h, Nat.min_self]
  | false =>
    obtain ⟨res, j, -⟩ := ok.original h
    rw [res, j, whole, length_append]
    omega

theorem Ok.lastIsSep (ok : Ok mt front v) (whole : mt = front ++ rest) (more : front ≠ []) :
    v.lastIsSep = true ↔ v.out.getLast? = some btsep := by
  have length := ok.length whole
  have filled : v.out ≠ [] := fun h => more (ok.started.mp h)
  have pos : 0 < v.j := length ▸ length_pos_iff.mpr filled
  rw [Conversion.lastIsSep, beq_iff_eq, getLast?_eq_getElem?, length, out, getElem?_take,
    if_pos (by omega)]

theorem makeCopy_out (ok : Ok mt front v) :
    (v.makeCopy mt front.length).cp = true ∧ (v.makeCopy mt front.length).res = v.out ∧
      (v.makeCopy mt front.length).j = v.j := by
  unfold makeCopy
  split
  next copied =>
    refine ⟨copied, ?_, rfl⟩
    rw [out, ← ok.copied copied, take_length]
  next original =>
    obtain ⟨res, j, -⟩ := ok.original (by simpa using original)
    exact ⟨rfl, by rw [out, res, j], rfl⟩

section

variable (ok : Ok mt front v) (whole : mt = front ++ rest)

include ok whole

theorem Ok.write {bytes : Bytes} (some_ : bytes ≠ []) (c : UInt8) :
    Ok mt (front ++ [c]) ((v.makeCopy mt front.length).append bytes) ∧
      ((v.makeCopy mt front.length).append bytes).out = v.out ++ bytes := by
  obtain ⟨copied, res, j⟩ := makeCopy_out ok
  have length := ok.length whole
  have written : ((v.makeCopy mt front.length).append bytes).out = v.out ++ bytes := by
    simp only [append, out] at res length ⊢
    rw [res, j]
    refine take_of_length_le ?_
    rw [length_append, length]
  refine ⟨⟨?_, ?_, ?_⟩, written⟩
  · intro _
    simp only [append, length_append, res, j, length]
  · intro original
    rw [append, copied] at original
    cases original
  · rw [written]
    simp [some_]

theorem Ok.out_eq (original : v.cp = false) : v.out = front := by
  obtain ⟨res, j, -⟩ := ok.original original
  rw [out, res, j, whole, take_left]

theorem Ok.copied_of_sep (sep : v.out.getLast? = some btsep) : v.cp = true := by
  by_contra original
  rw [Bool.not_eq_true] at original
  rw [ok.out_eq whole original] at sep
  exact (ok.original original).2.2 (mem_of_getLast? sep)

theorem Ok.makeCopy_zero (start : v.out.getLast? = none ∨ v.out.getLast? = some btsep) :
    v.makeCopy mt 0 = v.makeCopy mt front.length := by
  rcases start with none_ | sep
  · have empty := ok.started.mp (getLast?_eq_none_iff.mp none_)
    rw [empty, length_nil]
  · have copied := ok.copied_of_sep whole sep
    rw [makeCopy, makeCopy, if_pos copied, if_pos copied]

end

theorem Ok.keep (ok : Ok mt front v) {c : UInt8} (whole : mt = front ++ c :: rest)
    (original : v.cp = false) (other : c ≠ btsep) :
    Ok mt (front ++ [c]) { v with j := v.j + 1 } ∧
      out { v with j := v.j + 1 } = v.out ++ [c] := by
  obtain ⟨res, j, plain⟩ := ok.original original
  have next : mt = (front ++ [c]) ++ rest := by rw [whole]; simp
  have written : out { v with j := v.j + 1 } = front ++ [c] := by
    have length : front.length + 1 = (front ++ [c]).length := by simp
    rw [out, res, j, length, next, take_left]
  refine ⟨⟨?_, ?_, ?_⟩, ?_⟩
  · intro copied
    rw [original] at copied
    cases copied
  · intro _
    refine ⟨res, by simp [j], ?_⟩
    simp [plain, Ne.symm other]
  · rw [written]
  · rw [written, ok.out_eq whole original]

end Conversion

variable {mt topic subject : Bytes} {v : Conversion}

theorem Conversion.Ok.finish (ok : Ok mt mt v) :
    (if v.cp && v.lastIsSep then (v.append [mqttTopicLevelSep]).res.take (v.j + 1)
      else v.res.take v.j) = v.out ++ converted v.out.getLast? [] := by
  have whole : mt = mt ++ [] := by simp
  rw [converted]
  by_cases sep : v.out.getLast? = some btsep
  · have copied := ok.copied_of_sep whole sep
    have filled : mt ≠ [] := by
      intro empty
      rw [ok.started.mpr empty] at sep
      cases sep
    have last := (ok.lastIsSep whole filled).mpr sep
    have length := ok.copied copied
    have all : v.out = v.res := by rw [out, ← length, take_length]
    rw [copied, last, Bool.and_self, if_pos rfl, if_pos sep, all, append]
    exact take_of_length_le (by simp [length])
  have short : ¬ (v.cp && v.lastIsSep) = true := by
    rw [Bool.and_eq_true]
    rintro ⟨copied, last⟩
    by_cases empty : mt = []
    · have none_ := ok.started.mpr empty
      have length := ok.length whole
      rw [none_, length_nil] at length
      have nothing := ok.copied copied
      rw [← length, length_eq_zero_iff] at nothing
      simp [Conversion.lastIsSep, nothing] at last
    · exact sep ((ok.lastIsSep whole empty).mp last)
  rw [if_neg short, if_neg sep, append_nil, out]

theorem conversionLoop_ok {front rest : Bytes} {v' : Conversion} (ok : Conversion.Ok mt front v)
    (whole : mt = front ++ rest) (result : conversionLoop mt false front.length rest v = .ok v') :
    v'.out ++ converted v'.out.getLast? [] = v.out ++ converted v.out.getLast? rest ∧
      Conversion.Ok mt mt v' := by
  induction rest generalizing front v with
  | nil =>
    rw [append_nil] at whole
    cases result
    exact ⟨rfl, whole ▸ ok⟩
  | cons c rest ih =>
    have next : mt = (front ++ [c]) ++ rest := by rw [whole]; simp
    have count : front.length + 1 = (front ++ [c]).length := by simp
    -- what is written to the copy in this round
    have write {bytes : Bytes} (some_ : bytes ≠ [])
        (result : conversionLoop mt false (front.length + 1) rest
          ((v.makeCopy mt front.length).append bytes) = .ok v')
        (same : converted v.out.getLast? (c :: rest) =
          bytes ++ converted (v.out ++ bytes).getLast? rest) :
        v'.out ++ converted v'.out.getLast? [] =
            v.out ++ converted v.out.getLast? (c :: rest) ∧ Conversion.Ok mt mt v' := by
      obtain ⟨after, out⟩ := ok.write whole some_ c
      rw [count] at result
      obtain ⟨written, final⟩ := ih after next result
      refine ⟨written.trans ?_, final⟩
      rw [out, same, append_assoc]
    have start : (front.length = 0 || v.lastIsSep) = true ↔
        v.out.getLast? = none ∨ v.out.getLast? = some btsep := by
      by_cases empty : front = []
      · simp [empty, ok.started.mpr empty]
      · have filled : v.out ≠ [] := fun h => empty (ok.started.mp h)
        simp [empty, filled, ok.lastIsSep whole empty]
    rw [conversionLoop] at result
    split at result
    next slash =>
      by_cases first : v.out.getLast? = none ∨ v.out.getLast? = some btsep
      · rw [if_pos (start.mpr first), ok.makeCopy_zero whole first] at result
        refine write (by simp) result ?_
        rw [converted, if_pos slash, if_pos first]
        simp
      rw [if_neg (fun h => first (start.mp h))] at result
      by_cases last : rest = [] ∨ rest.head? = some mqttTopicLevelSep
      · rw [if_pos (by simpa using last)] at result
        refine write (by simp) result ?_
        rw [converted, if_pos slash, if_neg first, if_pos last]
        simp
      · rw [if_neg (by simpa using last)] at result
        refine write (by simp) result ?_
        rw [converted, if_pos slash, if_neg first, if_neg last]
        simp
    next slash =>
    split at result
    · cases result
    split at result
    · cases result
    split at result
    next dot =>
      refine write (by simp) result ?_
      rw [converted, if_neg slash, if_pos dot]
      simp
    next dot =>
    split at result
    · cases result
    split at result
    next copied =>
      have made : v.makeCopy mt front.length = v := if_pos copied
      rw [← made] at result
      refine write (by simp) result ?_
      rw [converted, if_neg slash, if_neg dot]
      simp
    next copied =>
      rw [count] at result
      obtain ⟨after, out⟩ := ok.keep whole (by simpa using copied) dot
      obtain ⟨written, final⟩ := ih after next result
      refine ⟨written.trans ?_, final⟩
      rw [out, converted, if_neg slash, if_neg dot]
      simp

theorem mqttTopicToNATSPubSubject_ok (result : mqttTopicToNATSPubSubject topic = .ok subject) :
    subject = converted none topic := by
  rw [mqttTopicToNATSPubSubject, mqttToNATSSubjectConversion] at result
  cases loop : conversionLoop topic false 0 topic ⟨false, topic, 0⟩ with
  | error e =>
    rw [loop] at result
    cases result
  | ok v =>
    rw [loop] at result
    have initial : Conversion.Ok topic [] ⟨false, topic, 0⟩ :=
      ⟨by simp, by simp, by simp [Conversion.out]⟩
    obtain ⟨written, final⟩ := conversionLoop_ok initial rfl loop
    exact (Except.ok.inj result).symm.trans (final.finish.trans written)

theorem conversionLoop_no_space {rest : Bytes} {wcOk : Bool} {i : Nat} {v' : Conversion}
    (result : conversionLoop mt wcOk i rest v = .ok v') : 32 ∉ rest := by
  induction rest generalizing i v with
  | nil => simp
  | cons c rest ih =>
    have later : 32 ∉ rest := by
      rw [conversionLoop] at result
      repeat' split at result
      all_goals first | exact ih result | cases result
    have here : c ≠ 32 := by
      rintro rfl
      simp [conversionLoop, mqttTopicLevelSep] at result
    simp [later, Ne.symm here]

theorem no_space_of_ok (result : mqttTopicToNATSPubSubject topic = .ok subject) : 32 ∉ topic := by
  rw [mqttTopicToNATSPubSubject, mqttToNATSSubjectConversion] at result
  cases loop : conversionLoop topic false 0 topic ⟨false, topic, 0⟩ with
  | error e =>
    rw [loop] at result
    cases result
  | ok v => exact conversionLoop_no_space loop

/-! ### The tokens of the subject -/

def escaped (level : Bytes) : Bytes :=
  level.flatMap (fun c => if c = btsep then [mqttTopicLevelSep, mqttTopicLevelSep] else [c])

theorem escaped_cons (c : UInt8) (level : Bytes) : escaped (c :: level) =
    (if c = btsep then [mqttTopicLevelSep, mqttTopicLevelSep] else [c]) ++ escaped level :=
  flatMap_cons

theorem escaped_eq_nil (level : Bytes) : escaped level = [] ↔ level = [] := by
  cases level with
  | nil => simp [escaped]
  | cons c level =>
    rw [escaped_cons]
    split <;> simp

def tokenOf (level : Bytes) : Token := if level = [] then [mqttTopicLevelSep] else escaped level

def levels (topic : Bytes) : List Bytes := topic.splitOn mqttTopicLevelSep

theorem splitOn_cons (sep c : UInt8) (s : Bytes) :
    ∃ first others, s.splitOn sep = first :: others ∧
      (c :: s).splitOn sep = if c = sep then [] :: first :: others else (c :: first) :: others := by
  obtain ⟨first, others, split⟩ := exists_cons_of_ne_nil (splitOn_ne_nil sep s)
  refine ⟨first, others, split, ?_⟩
  simp only [List.splitOn, splitOnP_cons_eq_if_modifyHead] at split ⊢
  rw [split]
  by_cases same : c = sep <;> simp [same]

theorem tokens_sep (s : Bytes) : tokens (btsep :: s) = [] :: tokens s := by
  obtain ⟨first, others, split, cons⟩ := splitOn_cons btsep btsep s
  rw [tokens, cons, if_pos rfl, tokens, split]

theorem tokens_cons {c : UInt8} (other : c ≠ btsep) {s : Bytes} {first : Token}
    {others : List Token} (split : tokens s = first :: others) :
    tokens (c :: s) = (c :: first) :: others := by
  obtain ⟨first', others', split', cons⟩ := splitOn_cons btsep c s
  rw [tokens, split'] at split
  cases split
  rw [tokens, cons, if_neg other]

theorem levels_sep (s : Bytes) : levels (mqttTopicLevelSep :: s) = [] :: levels s := by
  obtain ⟨first, others, split, cons⟩ := splitOn_cons mqttTopicLevelSep mqttTopicLevelSep s
  rw [levels, cons, if_pos rfl, levels, split]

/-- The tokens of what is written: at the start of a token, and within one. -/
theorem tokens_converted (topic : Bytes) :
    tokens (converted (some btsep) topic) = (levels topic).map tokenOf ∧
      ∀ c, c ≠ btsep → ∃ level others, levels topic = level :: others ∧
        tokens (converted (some c) topic) = escaped level :: others.map tokenOf := by
  induction topic with
  | nil =>
    refine ⟨by decide, fun c other => ⟨[], [], rfl, ?_⟩⟩
    simp [converted, other, escaped, tokens]
  | cons b rest ih =>
    obtain ⟨start, within⟩ := ih
    have slash : mqttTopicLevelSep ≠ btsep := by decide
    by_cases sep : b = mqttTopicLevelSep
    · subst sep
      refine ⟨?_, fun c other => ⟨[], levels rest, levels_sep rest, ?_⟩⟩
      · rw [converted, if_pos rfl, if_pos (.inr rfl), tokens_cons slash (tokens_sep _), start,
          levels_sep, map_cons]
        rfl
      · rw [converted, if_pos rfl, if_neg (by simp [other])]
        by_cases last : rest = [] ∨ rest.head? = some mqttTopicLevelSep
        · -- the next level has nothing in it
          obtain ⟨level, others, split, written⟩ := within mqttTopicLevelSep slash
          have empty : level = [] := by
            cases rest with
            | nil => exact (List.cons.inj split).1.symm
            | cons d rest =>
              have same : d = mqttTopicLevelSep := by simpa using last
              rw [same, levels_sep] at split
              exact (List.cons.inj split).1.symm
          rw [if_pos last, tokens_sep, tokens_cons slash written, split, empty]
          rfl
        · rw [if_neg last, tokens_sep, start]
          rfl
    -- the byte goes on with the level
    obtain ⟨level, others, split, cons⟩ := splitOn_cons mqttTopicLevelSep b rest
    rw [if_neg sep] at cons
    have grown : levels (b :: rest) = (b :: level) :: others := cons
    have token : tokenOf (b :: level) = escaped (b :: level) := if_neg (cons_ne_nil b level)
    have written (last : Option UInt8) : tokens (converted last (b :: rest)) =
        escaped (b :: level) :: others.map tokenOf := by
      rw [converted, if_neg sep]
      by_cases dot : b = btsep
      · obtain ⟨level', others', split', written⟩ := within mqttTopicLevelSep slash
        rw [levels, split] at split'
        cases split'
        rw [if_pos dot, tokens_cons slash (tokens_cons slash written), escaped_cons, if_pos dot]
        rfl
      · obtain ⟨level', others', split', written⟩ := within b dot
        rw [levels, split] at split'
        cases split'
        rw [if_neg dot, tokens_cons dot written, escaped_cons, if_neg dot]
        rfl
    refine ⟨?_, fun c _ => ⟨b :: level, others, grown, written (some c)⟩⟩
    rw [written, grown, map_cons, token]

theorem tokens_subject (filled : topic ≠ []) :
    tokens (converted none topic) = (levels topic).map tokenOf := by
  obtain ⟨b, rest, rfl⟩ := exists_cons_of_ne_nil filled
  rw [← (tokens_converted (b :: rest)).1]
  simp [converted]

theorem mem_converted {c : UInt8} (slash : c ≠ mqttTopicLevelSep) (dot : c ≠ btsep) (topic : Bytes)
    (last : Option UInt8) : c ∈ converted last topic ↔ c ∈ topic := by
  induction topic generalizing last with
  | nil =>
    rw [converted]
    split <;> simp [slash]
  | cons b rest ih =>
    rw [converted]
    split
    next sep =>
      split
      · simp [ih, slash, dot, sep]
      · split <;> simp [ih, slash, dot, sep]
    split
    next same => simp [ih, slash, dot, same]
    · simp [ih]

/-! ### Subjects that can be published -/

/-- Not empty, no token empty or a wildcard, and nothing that ends a line or a field of it. -/
def Publishable (subject : Bytes) : Prop :=
  subject ≠ [] ∧ [] ∉ tokens subject ∧ [pwc] ∉ tokens subject ∧ [fwc] ∉ tokens subject ∧
    ∀ c ∈ [(32 : UInt8), 9, 13, 10], c ∉ subject

/-- No level is a wildcard of the other protocol, and there is no tab, CR or LF. -/
def Harmless (topic : Bytes) : Prop :=
  [pwc] ∉ levels topic ∧ [fwc] ∉ levels topic ∧ ∀ c ∈ [(9 : UInt8), 13, 10], c ∉ topic

theorem tokenOf_ne_nil (level : Bytes) : tokenOf level ≠ [] := by
  unfold tokenOf
  split
  · simp
  next filled => rwa [ne_eq, escaped_eq_nil]

theorem tokenOf_eq_single {w : UInt8} (slash : w ≠ mqttTopicLevelSep) (dot : w ≠ btsep)
    (level : Bytes) : tokenOf level = [w] ↔ level = [w] := by
  unfold tokenOf
  split
  next empty => simp [empty, Ne.symm slash]
  rename_i filled
  obtain ⟨c, rest, rfl⟩ := exists_cons_of_ne_nil filled
  rw [escaped_cons]
  split
  next same => simp [same, Ne.symm dot]
  · simp [escaped_eq_nil]

theorem mem_tokens_single (filled : topic ≠ []) {w : UInt8} (slash : w ≠ mqttTopicLevelSep)
    (dot : w ≠ btsep) : [w] ∈ tokens (converted none topic) ↔ [w] ∈ levels topic := by
  rw [tokens_subject filled, mem_map]
  simp only [tokenOf_eq_single slash dot, exists_eq_right]

theorem parseTopic_ok {empty : Error} {field : String}
    (accepted : parseTopic empty field topic = .ok subject) :
    topic ≠ [] ∧ mqttTopicToNATSPubSubject topic = .ok subject := by
  rw [parseTopic] at accepted
  by_cases none_ : topic = []
  · simp [none_, throw, throwThe, MonadExceptOf.throw, bind, Except.bind] at accepted
  simp only [none_, if_false] at accepted
  refine ⟨none_, ?_⟩
  cases valid : mqttValidateTopic topic field with
  | error e =>
    rw [valid] at accepted
    cases accepted
  | ok u =>
    rw [valid] at accepted
    exact accepted

theorem parseTopic_publishable_iff {empty : Error} {field : String}
    (accepted : parseTopic empty field topic = .ok subject) :
    Publishable subject ↔ Harmless topic := by
  obtain ⟨filled, result⟩ := parseTopic_ok accepted
  have space := no_space_of_ok result
  have converted := mqttTopicToNATSPubSubject_ok result
  subst converted
  have noEmpty : [] ∉ tokens (Mqtt.converted none topic) := by
    rw [tokens_subject filled, mem_map]
    rintro ⟨level, -, same⟩
    exact tokenOf_ne_nil level same
  have nonempty : Mqtt.converted none topic ≠ [] := by
    intro nothing
    rw [nothing] at noEmpty
    exact noEmpty (by simp [tokens])
  have byte (c : UInt8) (slash : c ≠ mqttTopicLevelSep) (dot : c ≠ btsep) :=
    mem_converted slash dot topic none
  rw [Publishable, Harmless, mem_tokens_single filled (by decide) (by decide),
    mem_tokens_single filled (by decide) (by decide)]
  simp only [forall_mem_cons, not_mem_nil, false_implies, implies_true, and_true,
    byte 32 (by decide) (by decide), byte 9 (by decide) (by decide), byte 13 (by decide) (by decide),
    byte 10 (by decide) (by decide)]
  tauto

/-- The topics of messages and of wills. -/
theorem topic_publishable_iff {topic subject : Bytes}
    (accepted : pubSubject topic = .ok subject ∨ willSubject topic = .ok subject) :
    Publishable subject ↔ Harmless topic := by
  rcases accepted with accepted | accepted
  · exact parseTopic_publishable_iff accepted
  · exact parseTopic_publishable_iff accepted

/-- "a//b." becomes "a./.b//". -/
theorem slashes_publishable :
    pubSubject [97, 47, 47, 98, 46] = .ok [97, 46, 47, 46, 98, 47, 47] ∧
      Publishable [97, 46, 47, 46, 98, 47, 47] := by
  have accepted : pubSubject [97, 47, 47, 98, 46] = .ok [97, 46, 47, 46, 98, 47, 47] := by
    decide +kernel
  refine ⟨accepted, (topic_publishable_iff (.inl accepted)).mpr ?_⟩
  unfold Harmless
  decide +kernel

/-! ### Back to topics -/

def natsSubjectToMQTTTopic : Bytes → Bytes
  | [] => []
  | [c] => if c = mqttTopicLevelSep then [] else if c = btsep then [mqttTopicLevelSep] else [c]
  | c :: d :: rest =>
    if c = mqttTopicLevelSep then
      if d = btsep then mqttTopicLevelSep :: natsSubjectToMQTTTopic rest
      else if d = mqttTopicLevelSep then btsep :: natsSubjectToMQTTTopic rest
      -- a slash before any other byte is dropped
      else natsSubjectToMQTTTopic (d :: rest)
    else if c = btsep then mqttTopicLevelSep :: natsSubjectToMQTTTopic (d :: rest)
    else c :: natsSubjectToMQTTTopic (d :: rest)

theorem natsSubjectToMQTTTopic_sep (s : Bytes) :
    natsSubjectToMQTTTopic (btsep :: s) = mqttTopicLevelSep :: natsSubjectToMQTTTopic s := by
  cases s with
  | nil => rfl
  | cons d s => exact if_neg (by decide)

theorem natsSubjectToMQTTTopic_cons {c : UInt8} (slash : c ≠ mqttTopicLevelSep) (dot : c ≠ btsep)
    (s : Bytes) : natsSubjectToMQTTTopic (c :: s) = c :: natsSubjectToMQTTTopic s := by
  cases s <;> simp [natsSubjectToMQTTTopic, slash, dot]

/-- What is written is read back. A slash that stands for a level with nothing in it is either the
last byte or before the dot of the next slash, which it takes with it. -/
theorem natsSubjectToMQTTTopic_converted (topic : Bytes) :
    (∀ last, natsSubjectToMQTTTopic (converted last topic) = topic) ∧
      (topic = [] ∨ topic.head? = some mqttTopicLevelSep →
        natsSubjectToMQTTTopic
          (mqttTopicLevelSep :: converted (some mqttTopicLevelSep) topic) = topic) := by
  induction topic with
  | nil =>
    refine ⟨fun last => ?_, fun _ => rfl⟩
    rw [converted]
    split <;> rfl
  | cons b rest ih =>
    obtain ⟨whole, held⟩ := ih
    constructor
    · intro last
      rw [converted]
      split
      next slash =>
        rw [slash]
        split
        · exact congrArg _ (whole _)
        split
        next next => rw [natsSubjectToMQTTTopic_sep, held next]
        · rw [natsSubjectToMQTTTopic_sep, whole]
      next slash =>
      split
      next dot =>
        rw [dot]
        exact congrArg _ (whole _)
      next dot =>
        rw [natsSubjectToMQTTTopic_cons slash dot, whole]
    · intro start
      have slash : b = mqttTopicLevelSep := by simpa using start
      rw [converted, if_pos slash, slash, if_neg (by decide)]
      split
      next next => exact congrArg _ (held next)
      · exact congrArg _ (whole _)

/-- The topic of a message comes back from its subject, so no two topics share one. -/
theorem topic_of_subject {topic subject : Bytes}
    (result : mqttTopicToNATSPubSubject topic = .ok subject) :
    natsSubjectToMQTTTopic subject = topic ∧
      ∀ other, mqttTopicToNATSPubSubject other = .ok subject → other = topic := by
  have back {topic : Bytes} (result : mqttTopicToNATSPubSubject topic = .ok subject) :
      natsSubjectToMQTTTopic subject = topic := by
    rw [mqttTopicToNATSPubSubject_ok result]
    exact (natsSubjectToMQTTTopic_converted topic).1 none
  exact ⟨back result, fun other same => (back same).symm.trans (back result)⟩

/-- The topic "/a//.b/" is the subject "/.a././/b./". -/
theorem topic_of_subject_slashes :
    natsSubjectToMQTTTopic [47, 46, 97, 46, 47, 46, 47, 47, 98, 46, 47] =
      [47, 97, 47, 47, 46, 98, 47] :=
  (topic_of_subject (by decide +kernel)).1

/-- The topic "a/>" becomes a wildcard subject, and in "a", CR, LF, "b" the line break stays. -/
theorem topic_to_wildcard :
    pubSubject [97, 47, 62] = .ok [97, 46, 62] ∧ [fwc] ∈ tokens [97, 46, 62] ∧
      willSubject [97, 47, 62] = .ok [97, 46, 62] ∧ ¬ Publishable [97, 46, 62] ∧
      pubSubject [97, 13, 10, 98] = .ok [97, 13, 10, 98] ∧ ¬ Publishable [97, 13, 10, 98] := by
  unfold Publishable
  decide +kernel

end LinearNats.Mqtt
