import LinearNats.Search

/-! Header blocks as bytes. The server looks a key up by searching for its text and checking that
the match stands at the start of a line; the lookup gives up when two matches stand too close
together, so what it finds is stated in terms of the pieces between the matches. -/
namespace LinearNats.Server
open Search List Option

abbrev Bytes := List UInt8

instance : LawfulBEq Bytes := inferInstance

def ascii (s : String) : Bytes := s.toList.map (fun c => UInt8.ofNat c.toNat)

def crlf : Bytes := [13, 10]
def colon : UInt8 := 58
def blank : UInt8 := 32

/-- The loop of `getHeaderKeyIndex`; `none` stands for -1. Every iteration moves the offset by
the length of the key, so the length of the block bounds their number. -/
def getHeaderKeyIndexFrom (key hdr : Bytes) : Nat → Nat → Option Nat
  | 0, _ => none
  | fuel + 1, offset =>
    match indexOf key (hdr.drop offset) with
    | none => none
    | some index =>
      if index < 2 then none
      else
        let index := index + offset
        if hdr.length - 1 ≤ index ∨ hdr[index - 1]? ≠ some 10 ∨ hdr[index - 2]? ≠ some 13 then
          getHeaderKeyIndexFrom key hdr fuel (index + key.length)
        else if hdr.length ≤ index + key.length then none
        else if hdr[index + key.length]? ≠ some colon then
          getHeaderKeyIndexFrom key hdr fuel (index + key.length)
        else some index

def getHeaderKeyIndex (key hdr : Bytes) : Option Nat :=
  if hdr.length = 0 then none else getHeaderKeyIndexFrom key hdr (hdr.length + 1) 0

def untilCrlf : Bytes → Bytes
  | [] => []
  | c :: s => if crlf <+: c :: s then [] else c :: untilCrlf s

def sliceHeader (key hdr : Bytes) : Option Bytes :=
  match getHeaderKeyIndex key hdr with
  | none => none
  | some index =>
    some (untilCrlf ((hdr.drop (index + key.length + 1)).dropWhile (fun c => c == blank)))

structure Line where
  key : Bytes
  value : Bytes
  named : key ≠ []
  keyPlain : colon ∉ key ∧ 13 ∉ key ∧ 10 ∉ key
  valuePlain : ¬ crlf <:+: value

def Line.text (l : Line) : Bytes := l.key ++ colon :: l.value

def bodyText : List Line → Bytes
  | [] => crlf
  | l :: ls => l.text ++ crlf ++ bodyText ls

structure Block where
  status : Bytes
  lines : List Line
  version : ascii "NATS/1.0" <+: status
  statusPlain : ¬ crlf <:+: status

def Block.bytes (b : Block) : Bytes := b.status ++ crlf ++ bodyText b.lines

structure PlainKey (key : Bytes) : Prop where
  named : key ≠ []
  colon : Server.colon ∉ key
  cr : 13 ∉ key
  lf : 10 ∉ key

theorem Line.textPlain (l : Line) : ¬ crlf <:+: l.text := by
  rw [Line.text, infix_append_cons_iff (by decide) (by decide)]
  rintro (inside | inside)
  · exact l.keyPlain.2.1 (inside.subset (by decide))
  · exact l.valuePlain inside

/-- The search over the pieces between the matches of a key: a match counts when the piece before
it ends a line and the piece after it starts with the colon, and the search gives up at a match
that follows too closely. -/
def scan : List Bytes → Option (List Bytes)
  | p :: q :: rest =>
    if p.length < 2 then none
    else if crlf <:+ p ∧ q.head? = some colon then some (q :: rest)
    else scan (q :: rest)
  | _ => none

theorem scan_single (p : Bytes) : scan [p] = none := rfl

theorem crlf_suffix_take {s : Bytes} {i : Nat} (two : 2 ≤ i) (inside : i ≤ s.length) :
    crlf <:+ s.take i ↔ s[i - 1]? = some 10 ∧ s[i - 2]? = some 13 := by
  obtain ⟨j, rfl⟩ := Nat.exists_eq_add_of_le' two
  have split : s.take (j + 2) = s.take j ++ [s[j], s[j + 1]] := by
    have outer : s.take (j + 1 + 1) = s.take (j + 1) ++ [s[j + 1]] :=
      take_succ_eq_append_getElem (by omega)
    have inner : s.take (j + 1) = s.take j ++ [s[j]] :=
      take_succ_eq_append_getElem (by omega)
    rw [outer, inner, append_assoc]
    rfl
  have last : crlf <:+ s.take j ++ [s[j], s[j + 1]] ↔ crlf = [s[j], s[j + 1]] := by
    rw [suffix_iff_eq_drop]
    simp [crlf]
  have h₁ : s[j + 2 - 1]? = some s[j + 1] := getElem?_eq_getElem (by omega)
  have h₂ : s[j + 2 - 2]? = some s[j] := getElem?_eq_getElem (by omega)
  rw [split, last, h₁, h₂]
  simp only [crlf, List.cons.injEq, and_true, Option.some.injEq]
  constructor
  · rintro ⟨cr, lf⟩
    exact ⟨lf.symm, cr.symm⟩
  · rintro ⟨lf, cr⟩
    exact ⟨cr.symm, lf.symm⟩

variable {q g v : Bytes} {qs : List Bytes}

theorem head_pieces {key : Bytes} (plain : PlainKey key) {s : Bytes} {rest : List Bytes}
    (split : pieces key s = q :: rest) : q.head? = some colon ↔ s.head? = some colon := by
  constructor
  · intro head
    obtain ⟨tail, rfl⟩ := pieces_head_starts plain.named split
    cases q with
    | nil => simp at head
    | cons c q => simpa using head
  · intro head
    cases s with
    | nil => simp at head
    | cons c s =>
      have : c = colon := by simpa using head
      subst this
      rw [pieces_cons_of_outside plain.named plain.colon] at split
      obtain ⟨p, ps, hp⟩ := exists_cons_of_ne_nil (pieces_ne_nil key s)
      rw [hp] at split
      rw [← (List.cons.inj split).1]
      rfl

theorem getHeaderKeyIndexFrom_scan {key : Bytes} (plain : PlainKey key) (hdr : Bytes)
    (fuel offset : Nat) (inside : offset ≤ hdr.length) (enough : hdr.length < offset + fuel) :
    (getHeaderKeyIndexFrom key hdr fuel offset).map
        (fun i => pieces key (hdr.drop (i + key.length))) =
      scan (pieces key (hdr.drop offset)) := by
  have size := length_pos_iff.mpr plain.named
  induction fuel generalizing offset with
  | zero => omega
  | succ fuel ih =>
    simp only [getHeaderKeyIndexFrom]
    cases found : indexOf key (hdr.drop offset) with
    | none =>
      rw [pieces_of_indexOf_none found]
      rfl
    | some index =>
      obtain ⟨room, _, split⟩ := pieces_of_indexOf_some plain.named found
      simp only [length_drop] at room
      have next : (hdr.drop offset).drop (index + key.length) =
          hdr.drop (index + offset + key.length) := by
        rw [drop_drop]
        congr 1
        omega
      rw [next] at split
      obtain ⟨q, rest, hq⟩ :=
        exists_cons_of_ne_nil (pieces_ne_nil key (hdr.drop (index + offset + key.length)))
      have colonHead := head_pieces plain hq
      rw [head?_drop] at colonHead
      rw [split, hq, scan, ← hq]
      have long : ((hdr.drop offset).take index).length = index := by
        simp only [length_take, length_drop]
        omega
      rw [long]
      by_cases close : index < 2
      · simp [close]
      have ends := crlf_suffix_take (s := hdr.drop offset) (i := index) (by omega)
        (by simp only [length_drop]; omega)
      rw [getElem?_drop, getElem?_drop] at ends
      have h₁ : offset + (index - 1) = index + offset - 1 := by omega
      have h₂ : offset + (index - 2) = index + offset - 2 := by omega
      rw [h₁, h₂] at ends
      have tail := ih (index + offset + key.length) (by omega) (by omega)
      simp only [if_neg close, ends, colonHead]
      by_cases start : hdr[index + offset - 1]? = some 10 ∧ hdr[index + offset - 2]? = some 13
      · by_cases mark : hdr[index + offset + key.length]? = some colon
        · have bound := (List.getElem?_eq_some_iff.mp mark).1
          have early : ¬ hdr.length - 1 ≤ index + offset := by omega
          have inner : ¬ hdr.length ≤ index + offset + key.length := by omega
          simp [start, mark, early, inner]
        · by_cases past : hdr.length ≤ index + offset + key.length
          · have last : pieces key (hdr.drop (index + offset + key.length)) = [[]] := by
              rw [drop_eq_nil_of_le past, pieces_nil]
            rw [last, scan_single] at tail
            have unmarked : ¬ ((hdr[index + offset - 1]? = some 10 ∧
                hdr[index + offset - 2]? = some 13) ∧
                hdr[index + offset + key.length]? = some colon) := fun h => mark h.2
            rw [last, scan_single, if_neg unmarked]
            split
            · exact tail
            · simp
          · simp only [start, mark, past, and_false, if_false, ne_eq, not_true_eq_false,
              not_false_eq_true, or_false, if_true, ite_self]
            exact tail
      · have stray : hdr.length - 1 ≤ index + offset ∨ hdr[index + offset - 1]? ≠ some 10 ∨
            hdr[index + offset - 2]? ≠ some 13 := by
          by_contra none
          simp only [not_or, ne_eq, not_not] at none
          exact start none.2
        rw [if_pos stray, if_neg (fun h => start h.1)]
        exact tail
/-- No two matches of the key inside this line stand so close that the search gives up. -/
def Roomy (key text : Bytes) : Prop := ∀ p ∈ (pieces key text).tail.dropLast, 2 ≤ p.length

instance (key text : Bytes) : Decidable (Roomy key text) :=
  inferInstanceAs (Decidable (∀ p ∈ (pieces key text).tail.dropLast, 2 ≤ p.length))

/-- The first line with the key, and the lines behind it, unless the search gives up before. -/
def reach (key : Bytes) : List Line → Option (Line × List Line)
  | [] => none
  | l :: ls =>
    if l.key = key then some (l, ls)
    else if Roomy key l.text then reach key ls
    else none

/-- The pieces of one line do not end a line, so the search passes them or gives up. -/
theorem scan_glue {ps : List Bytes} (ne : ps ≠ []) (inner : ∀ p ∈ ps, ¬ crlf <:+ p) (r : Bytes)
    (rs : List Bytes) :
    scan (glue ps (r :: rs)) =
      if ∀ p ∈ ps.dropLast, 2 ≤ p.length then scan ((ps.getLast ne ++ r) :: rs) else none := by
  induction ps with
  | nil => exact absurd rfl ne
  | cons p ps ih =>
    cases ps with
    | nil => simp [glue]
    | cons p' ps =>
      have rest := ih (by simp) (fun x hx => inner x (mem_cons_of_mem p hx))
      obtain ⟨x, xs, hx⟩ : ∃ x xs, glue (p' :: ps) (r :: rs) = x :: xs := by
        cases ps with
        | nil => exact ⟨_, _, rfl⟩
        | cons p'' ps => exact ⟨_, _, rfl⟩
      simp only [glue]
      rw [hx] at rest ⊢
      rw [scan, rest]
      have stray := inner p mem_cons_self
      simp only [stray, false_and, if_false, dropLast_cons_cons, mem_cons, forall_eq_or_imp,
        getLast_cons_cons]
      by_cases close : p.length < 2
      · have : ¬ 2 ≤ p.length := by omega
        simp [close, this]
      · have : 2 ≤ p.length := by omega
        simp [close, this]

theorem pieces_crlf_append {key : Bytes} (plain : PlainKey key) (s : Bytes)
    (split : pieces key s = q :: qs) : pieces key (crlf ++ s) = (crlf ++ q) :: qs := by
  show pieces key (13 :: 10 :: s) = _
  rw [pieces_cons_of_outside plain.named plain.cr, pieces_cons_of_outside plain.named plain.lf,
    split]
  rfl

/-- A gap that ends a line stays one only as long as nothing of the next line is added. -/
theorem crlf_suffix_append (ends : crlf <:+ g) (plain : ¬ crlf <:+: q) :
    crlf <:+ g ++ q ↔ q = [] := by
  constructor
  · intro h
    rcases lt_or_ge q.length 2 with short | long
    · obtain ⟨g', rfl⟩ := ends
      match q, short with
      | [], _ => rfl
      | [x], _ =>
        rw [suffix_iff_eq_drop] at h
        simp [crlf] at h
    · have inside : crlf <:+ q := suffix_of_suffix_length_le h (suffix_append g q) long
      exact absurd inside.isInfix plain
  · rintro rfl
    simpa using ends

theorem two_le_of_crlf (ends : crlf <:+ g) : 2 ≤ g.length := ends.length_le

theorem head_glue_colon {r : Bytes} {rs : List Bytes} (r_head : r.head? ≠ some colon) {x : Bytes}
    {xs : List Bytes} (hx : glue (q :: qs) (r :: rs) = x :: xs) (head : x.head? = some colon) :
    q.head? = some colon := by
  cases qs with
  | nil =>
    have : q ++ r = x := (List.cons.inj hx).1
    subst this
    cases q with
    | nil => exact absurd head r_head
    | cons c q => exact head
  | cons q' qs =>
    have : q = x := (List.cons.inj hx).1
    exact this ▸ head

theorem line_key_of_match {key : Bytes} (plain : PlainKey key) {l : Line}
    (split : pieces key l.text = [] :: q :: qs) (head : q.head? = some colon) : l.key = key := by
  obtain ⟨text, rest⟩ := prefix_of_pieces_nil plain.named split
  have after := (head_pieces plain rest).mp head
  obtain ⟨tail, htail⟩ : ∃ tail, l.text.drop key.length = colon :: tail := by
    cases hd : l.text.drop key.length with
    | nil => simp [hd] at after
    | cons c tail => exact ⟨tail, by simpa [hd] using after⟩
  rw [htail, Line.text] at text
  have before : ∀ a b : Bytes, colon ∉ a →
      (a ++ colon :: b).takeWhile (fun c => c ≠ colon) = a := by
    intro a b outside
    rw [takeWhile_append_of_pos (by
      intro c hc
      simpa using fun same : c = colon => outside (same ▸ hc))]
    simp
  rw [← before l.key l.value l.keyPlain.1, text, before key tail plain.colon]

theorem scan_body {key : Bytes} (plain : PlainKey key) (ls : List Line) (ends : crlf <:+ g)
    (split : pieces key (bodyText ls) = q :: qs) :
    scan ((g ++ q) :: qs) =
      (reach key ls).map (fun r => pieces key (colon :: r.1.value ++ crlf ++ bodyText r.2)) := by
  induction ls generalizing g q qs with
  | nil =>
    have alone := pieces_crlf_append plain [] (pieces_nil key)
    simp only [append_nil] at alone
    rw [bodyText, alone] at split
    obtain ⟨rfl, rfl⟩ := List.cons.inj split
    rfl
  | cons l ls ih =>
    obtain ⟨r, rs, hr⟩ := exists_cons_of_ne_nil (pieces_ne_nil key (bodyText ls))
    have tail := pieces_crlf_append plain (bodyText ls) hr
    by_cases here : l.key = key
    · have text : bodyText (l :: ls) = key ++ (colon :: l.value ++ crlf ++ bodyText ls) := by
        simp [bodyText, Line.text, here]
      rw [text, pieces_pat_append plain.named] at split
      obtain ⟨rfl, rfl⟩ := List.cons.inj split
      obtain ⟨x, xs, hx⟩ := exists_cons_of_ne_nil
        (pieces_ne_nil key (colon :: l.value ++ crlf ++ bodyText ls))
      have head := (head_pieces plain hx).mpr rfl
      have two := two_le_of_crlf ends
      rw [hx, scan, append_nil, if_neg (by omega), if_pos ⟨ends, head⟩, ← hx]
      simp [reach, here]
    · have text : bodyText (l :: ls) = l.text ++ 13 :: (10 :: bodyText ls) := by
        simp [bodyText, crlf]
      have glued : pieces key (bodyText (l :: ls)) =
          glue (pieces key l.text) ((crlf ++ r) :: rs) := by
        rw [text, pieces_append_cons plain.cr]
        exact congrArg _ tail
      obtain ⟨p, ps, hp⟩ := exists_cons_of_ne_nil (pieces_ne_nil key l.text)
      have inner : ∀ x ∈ p :: ps, ¬ crlf <:+: x := by
        intro x hx within
        exact l.textPlain (within.trans (pieces_within plain.named l.text x (hp ▸ hx)))
      rw [hp] at glued
      rw [glued] at split
      have next : ∀ g', scan ((g' ++ (crlf ++ r)) :: rs) = (reach key ls).map
          (fun r => pieces key (colon :: r.1.value ++ crlf ++ bodyText r.2)) := by
        intro g'
        rw [← append_assoc]
        exact ih (suffix_append g' crlf) hr
      cases ps with
      | nil =>
        obtain ⟨rfl, rfl⟩ := List.cons.inj split
        rw [← append_assoc, next]
        simp [reach, here, Roomy, hp]
      | cons p' ps =>
        obtain ⟨rfl, rfl⟩ := List.cons.inj split
        obtain ⟨x, xs, hx⟩ : ∃ x xs, glue (p' :: ps) ((crlf ++ r) :: rs) = x :: xs := by
          cases ps with
          | nil => exact ⟨_, _, rfl⟩
          | cons p'' ps => exact ⟨_, _, rfl⟩
        have two : 2 ≤ (g ++ p).length := by
          have := two_le_of_crlf ends
          simp only [length_append]
          omega
        have miss : ¬ (crlf <:+ g ++ p ∧ x.head? = some colon) := by
          rintro ⟨line, head⟩
          have start : p = [] :=
            (crlf_suffix_append ends (inner p mem_cons_self)).mp line
          have mark := head_glue_colon (by simp [crlf, colon]) hx head
          exact here (line_key_of_match plain (start ▸ hp) mark)
        have passed := scan_glue (cons_ne_nil p' ps)
          (fun y hy within => inner y (mem_cons_of_mem p hy) within.isInfix) (crlf ++ r) rs
        rw [hx] at passed ⊢
        rw [scan, if_neg (by omega), if_neg miss, passed, next]
        simp only [reach, here, if_false, Roomy, hp, tail_cons]
        split <;> rfl
/-- What the search reaches in a whole block: its first line takes part in the search too. -/
def Block.reach (b : Block) (key : Bytes) : Option (Line × List Line) :=
  if ∀ p ∈ (pieces key b.status).dropLast, 2 ≤ p.length then Server.reach key b.lines else none

def linesBefore (key : Bytes) (ls : List Line) : List Line := ls.takeWhile (fun l => l.key ≠ key)

/-- No line before the first one with the key, the status line included, makes the search give
up. -/
def Block.Reaches (b : Block) (key : Bytes) : Prop :=
  (∀ p ∈ (pieces key b.status).dropLast, 2 ≤ p.length) ∧
    ∀ l ∈ linesBefore key b.lines, Roomy key l.text

instance (b : Block) (key : Bytes) : Decidable (b.Reaches key) :=
  inferInstanceAs (Decidable (_ ∧ _))

theorem reach_line (key : Bytes) (ls : List Line) :
    (reach key ls).map Prod.fst =
      if ∀ l ∈ linesBefore key ls, Roomy key l.text then
        ls.find? (fun l => l.key = key)
      else none := by
  induction ls with
  | nil => rfl
  | cons l ls ih =>
    by_cases here : l.key = key
    · simp [reach, here, linesBefore]
    have more : linesBefore key (l :: ls) = l :: linesBefore key ls := by
      simp [linesBefore, here]
    by_cases roomy : Roomy key l.text
    · simpa [reach, here, more, roomy] using ih
    · simp [reach, here, more, roomy]

theorem Block.reach_line (b : Block) (key : Bytes) :
    (b.reach key).map Prod.fst =
      if b.Reaches key then b.lines.find? (fun l => l.key = key) else none := by
  by_cases status : ∀ p ∈ (pieces key b.status).dropLast, 2 ≤ p.length
  · have same : b.Reaches key ↔ ∀ l ∈ linesBefore key b.lines, Roomy key l.text :=
      and_iff_right status
    rw [Block.reach, if_pos status, Server.reach_line]
    simp only [same]
  · rw [Block.reach, if_neg status, if_neg (fun reaches => status reaches.1)]
    rfl

theorem getHeaderKeyIndex_block {key : Bytes} (plain : PlainKey key) (b : Block) :
    (getHeaderKeyIndex key b.bytes).map (fun i => b.bytes.drop (i + key.length)) =
      (b.reach key).map (fun r => colon :: r.1.value ++ crlf ++ bodyText r.2) := by
  have size : b.bytes.length ≠ 0 := by
    simp [Block.bytes, crlf]
  have found := getHeaderKeyIndexFrom_scan plain b.bytes (b.bytes.length + 1) 0 (Nat.zero_le _)
    (by omega)
  obtain ⟨r, rs, hr⟩ := exists_cons_of_ne_nil (pieces_ne_nil key (bodyText b.lines))
  have tail := pieces_crlf_append plain (bodyText b.lines) hr
  have text : b.bytes = b.status ++ 13 :: (10 :: bodyText b.lines) := by
    simp [Block.bytes, crlf]
  have glued : pieces key b.bytes = glue (pieces key b.status) ((crlf ++ r) :: rs) := by
    rw [text, pieces_append_cons plain.cr]
    exact congrArg _ tail
  have inner : ∀ p ∈ pieces key b.status, ¬ crlf <:+ p := by
    intro p hp within
    exact b.statusPlain (within.isInfix.trans (pieces_within plain.named b.status p hp))
  rw [drop_zero, glued, scan_glue (pieces_ne_nil key b.status) inner, ← append_assoc,
    scan_body plain b.lines (suffix_append _ crlf) hr] at found
  apply map_injective (pieces_injective plain.named)
  rw [getHeaderKeyIndex, if_neg size, Option.map_map, Option.map_map]
  simp only [Function.comp_def, Block.reach]
  rw [found]
  split <;> rfl

theorem crlf_not_at_start {c : UInt8} (plain : ¬ crlf <:+: c :: v) (rest : Bytes) :
    ¬ crlf <+: c :: (v ++ crlf ++ rest) := by
  rintro ⟨t, ht⟩
  cases v with
  | nil => simp [crlf] at ht
  | cons d v =>
    apply plain
    have : c = 13 ∧ d = 10 := by
      simp only [crlf, cons_append, List.cons.injEq] at ht
      exact ⟨ht.1.symm, ht.2.1.symm⟩
    exact ⟨[], v, by simp [crlf, this]⟩

theorem untilCrlf_append (plain : ¬ crlf <:+: v) (rest : Bytes) :
    untilCrlf (v ++ crlf ++ rest) = v := by
  induction v with
  | nil => rfl
  | cons c v ih =>
    have tail : ¬ crlf <:+: v := fun h => plain (h.trans (suffix_cons c v).isInfix)
    simp only [cons_append, untilCrlf]
    rw [if_neg (crlf_not_at_start plain rest), ih tail]

theorem pieces_crlf_line (plain : ¬ crlf <:+: v) (rest : Bytes) :
    pieces crlf (v ++ crlf ++ rest) = v :: pieces crlf rest := by
  induction v with
  | nil => exact pieces_pat_append (by decide) rest
  | cons c v ih =>
    have tail : ¬ crlf <:+: v := fun h => plain (h.trans (suffix_cons c v).isInfix)
    simp only [cons_append]
    rw [pieces_cons_of_no_match (crlf_not_at_start plain rest), ih tail]
    rfl

theorem pieces_crlf_block (b : Block) :
    pieces crlf b.bytes = b.status :: (b.lines.map Line.text ++ [[], []]) := by
  have body : ∀ ls, pieces crlf (bodyText ls) = ls.map Line.text ++ [[], []] := by
    intro ls
    induction ls with
    | nil => rfl
    | cons l ls ih =>
      rw [bodyText, pieces_crlf_line l.textPlain, ih]
      rfl
  rw [Block.bytes, pieces_crlf_line b.statusPlain, body]

/-- The lookup returns the value of the first line with the key, leading blanks skipped, as far
as the search reaches it. -/
theorem sliceHeader_block {key : Bytes} (plain : PlainKey key) (b : Block) :
    sliceHeader key b.bytes =
      (b.reach key).map (fun r => r.1.value.dropWhile (fun c => c == blank)) := by
  have found := getHeaderKeyIndex_block plain b
  rw [sliceHeader]
  cases hi : getHeaderKeyIndex key b.bytes with
  | none =>
    rw [hi, map_none, eq_comm, map_eq_none_iff] at found
    rw [found]
    rfl
  | some i =>
    rw [hi, map_some, eq_comm, map_eq_some_iff] at found
    obtain ⟨r, hr, text⟩ := found
    have value : b.bytes.drop (i + key.length + 1) = r.1.value ++ crlf ++ bodyText r.2 := by
      rw [← drop_drop, ← text]
      rfl
    have skip : (r.1.value ++ crlf ++ bodyText r.2).dropWhile (fun c => c == blank) =
        r.1.value.dropWhile (fun c => c == blank) ++ crlf ++ bodyText r.2 := by
      rw [append_assoc, append_assoc, dropWhile_append]
      split
      next empty =>
        rw [isEmpty_iff.mp empty]
        rfl
      · rfl
    have short : ¬ crlf <:+: r.1.value.dropWhile (fun c => c == blank) :=
      fun h => r.1.valuePlain (h.trans (dropWhile_suffix _).isInfix)
    rw [hr]
    simp only [map_some]
    rw [value, skip, untilCrlf_append short]

def Block.value (b : Block) (key : Bytes) : Option Bytes :=
  (b.lines.find? (fun l => l.key = key)).map (fun l => l.value.dropWhile (fun c => c == blank))

/-- The lookup goes by lines unless the search gives up before the line with the key. -/
theorem sliceHeader_value_iff {key : Bytes} (plain : PlainKey key) (b : Block) :
    sliceHeader key b.bytes = b.value key ↔ b.Reaches key ∨ ∀ l ∈ b.lines, l.key ≠ key := by
  have found : sliceHeader key b.bytes = ((b.reach key).map Prod.fst).map
      (fun l => l.value.dropWhile (fun c => c == blank)) := by
    rw [sliceHeader_block plain, Option.map_map]
    rfl
  have absent : b.value key = none ↔ ∀ l ∈ b.lines, l.key ≠ key := by
    simp [Block.value]
  rw [found, Block.reach_line]
  split
  next reaches => exact iff_of_true rfl (.inl reaches)
  next reaches =>
    rw [map_none, eq_comm, absent, or_iff_right reaches]

def natsBlock (lines : List Line) : Block :=
  ⟨ascii "NATS/1.0", lines, by decide, by decide⟩

/-- A line "b:aa" and then one "a:1". -/
def twiceInValue : Block :=
  natsBlock [⟨[98], [97, 97], by decide, by decide, by decide⟩,
    ⟨[97], [49], by decide, by decide, by decide⟩]

theorem sliceHeader_value_b :
    sliceHeader [98] twiceInValue.bytes = twiceInValue.value [98] :=
  (sliceHeader_value_iff ⟨by decide, by decide, by decide, by decide⟩ twiceInValue).mpr
    (.inl (by decide))

/-- The second "a" of the value follows the first too closely. -/
theorem sliceHeader_line_not_found :
    sliceHeader [97] twiceInValue.bytes = none ∧ twiceInValue.value [97] = some [49] := by
  decide

end LinearNats.Server
