import Mathlib

/-! Unsigned numbers as little-endian byte strings and as varints, and slices of byte strings. -/
namespace LinearNats.LittleEndian
open List

/-- The `width` little-endian bytes of a number; higher bytes are cut off. -/
def putUint : Nat → Nat → List UInt8
  | 0, _ => []
  | width + 1, n => UInt8.ofNat n :: putUint width (n / 256)

def getUint : List UInt8 → Nat
  | [] => 0
  | b :: bs => b.toNat + 256 * getUint bs

def slice (buf : List UInt8) (i j : Nat) : List UInt8 := (buf.take j).drop i

@[simp] theorem putUint_length (width n : Nat) : (putUint width n).length = width := by
  induction width generalizing n with
  | zero => rfl
  | succ width ih => simp [putUint, ih]

theorem getUint_putUint (width n : Nat) : getUint (putUint width n) = n % 256 ^ width := by
  induction width generalizing n with
  | zero => simp [putUint, getUint, Nat.mod_one]
  | succ width ih =>
    have digit : (UInt8.ofNat n).toNat = n % 256 := by simp
    rw [putUint, getUint, ih, digit, Nat.pow_succ, mul_comm (256 ^ width) 256, Nat.mod_mul]

variable {n i j : Nat} {buf : List UInt8}

theorem getUint_putUint_of_lt {width : Nat} (fits : n < 256 ^ width) :
    getUint (putUint width n) = n := by
  rw [getUint_putUint, Nat.mod_eq_of_lt fits]

theorem getUint_lt (bs : List UInt8) : getUint bs < 256 ^ bs.length := by
  induction bs with
  | nil => simp [getUint]
  | cons b bs ih =>
    have digit := b.toNat_lt
    simp only [getUint, length_cons, Nat.pow_succ]
    omega

theorem putUint_getUint (bs : List UInt8) : putUint bs.length (getUint bs) = bs := by
  induction bs with
  | nil => rfl
  | cons b bs ih =>
    have digit := b.toNat_lt
    have low : UInt8.ofNat (b.toNat + 256 * getUint bs) = b := by
      apply UInt8.toNat_inj.mp
      simp
    have high : (b.toNat + 256 * getUint bs) / 256 = getUint bs := by omega
    rw [length_cons, getUint, putUint, low, high, ih]

@[simp] theorem slice_length (buf : List UInt8) (i j : Nat) :
    (slice buf i j).length = min j buf.length - i := by
  simp [slice]

theorem slice_append_left {left right : List UInt8} (inside : j ≤ left.length) :
    slice (left ++ right) i j = slice left i j := by
  simp [slice, take_append_of_le_length inside]

theorem slice_middle {left mid right : List UInt8} (start : left.length = i)
    (stop : i + mid.length = j) : slice (left ++ (mid ++ right)) i j = mid := by
  subst start stop
  simp [slice, take_append]

theorem take_slice (inside : i + n ≤ j) : (slice buf i j).take n = slice buf i (i + n) := by
  simp [slice, take_drop, take_take, inside]

theorem drop_slice (buf : List UInt8) (i j n : Nat) :
    (slice buf i j).drop n = slice buf (i + n) j := by
  simp [slice]

theorem take_append_slice (order : i ≤ j) : buf.take i ++ slice buf i j = buf.take j := by
  have first : buf.take i = (buf.take j).take i := by rw [take_take, min_eq_left order]
  rw [slice, first, take_append_drop]

theorem slice_append_slice {k : Nat} (one : i ≤ j) (two : j ≤ k) :
    slice buf i j ++ slice buf j k = slice buf i k := by
  refine append_cancel_left (?_ : buf.take i ++ _ = buf.take i ++ _)
  rw [← append_assoc, take_append_slice one, take_append_slice two,
    take_append_slice (le_trans one two)]

theorem slice_cons (low : i < j) (high : i < buf.length) :
    slice buf i j = buf.getD i 0 :: slice buf (i + 1) j := by
  have inside : i < (buf.take j).length := by
    rw [length_take]
    omega
  rw [slice, drop_eq_getElem_cons inside, slice, getElem_take,
    getD_eq_getElem?_getD, getElem?_eq_getElem high, Option.getD_some]

/-- The varint of a number, in at most `room` bytes: seven bits a byte, the high bit on all but
the last. -/
def putUvarint : Nat → Nat → List UInt8
  | 0, _ => []
  | room + 1, n =>
    if n < 128 then [UInt8.ofNat n] else UInt8.ofNat (n % 128 + 128) :: putUvarint room (n / 128)

/-- The number, of 64 bits, and the position after it; `x` and `i` are the bits and the bytes read
so far. Nothing if the bytes end in it or it is too large. -/
def uvarintFrom (x i : Nat) : List UInt8 → Option (Nat × Nat)
  | [] => none
  | b :: rest =>
    if i = 10 then none
    else if b.toNat < 128 then
      if i = 9 ∧ 1 < b.toNat then none else some (x + b.toNat * 2 ^ (7 * i), i + 1)
    else uvarintFrom (x + b.toNat % 128 * 2 ^ (7 * i)) (i + 1) rest

def uvarint (buf : List UInt8) : Option (Nat × Nat) := uvarintFrom 0 0 buf

theorem uvarintFrom_putUvarint {room : Nat} (ten : i + room = 10) (more : i < 10)
    (fits : n < 2 ^ (64 - 7 * i)) (x : Nat) (rest : List UInt8) :
    uvarintFrom x i (putUvarint room n ++ rest) =
      some (x + n * 2 ^ (7 * i), i + (putUvarint room n).length) := by
  induction room generalizing i n x with
  | zero => omega
  | succ room ih =>
    rw [putUvarint]
    by_cases small : n < 128
    · have byte : (UInt8.ofNat n).toNat = n := by
        rw [UInt8.toNat_ofNat', Nat.mod_eq_of_lt (by omega)]
      have last : ¬ (i = 9 ∧ 1 < n) := by
        rintro ⟨rfl, large⟩
        omega
      rw [if_pos small, cons_append, uvarintFrom, byte, if_neg (by omega), if_pos small,
        if_neg last]
      rfl
    have byte : (UInt8.ofNat (n % 128 + 128)).toNat = n % 128 + 128 := by
      rw [UInt8.toNat_ofNat', Nat.mod_eq_of_lt (by omega)]
    -- A number that goes on after byte `i` has more than seven bits left.
    have bits : 7 < 64 - 7 * i := by
      by_contra few
      have := Nat.pow_le_pow_right (n := 2) (by omega) (le_of_not_gt few)
      omega
    have shift : 2 ^ (64 - 7 * i) = 2 ^ (64 - 7 * (i + 1)) * 128 := by
      rw [show 64 - 7 * i = 64 - 7 * (i + 1) + 7 by omega, Nat.pow_add]
    have tail := ih (i := i + 1) (n := n / 128) (by omega) (by omega) (by omega)
      (x + (n % 128 + 128) % 128 * 2 ^ (7 * i))
    rw [if_neg small, cons_append, uvarintFrom, byte, if_neg (by omega), if_neg (by omega), tail]
    have value : n = n % 128 + 128 * (n / 128) := (Nat.mod_add_div n 128).symm
    have step : 2 ^ (7 * (i + 1)) = 128 * 2 ^ (7 * i) := by
      rw [Nat.mul_add, Nat.pow_add, mul_comm]
    simp only [Nat.add_mod_right, Nat.mod_mod, length_cons, step, Option.some.injEq, Prod.mk.injEq]
    constructor
    · nth_rewrite 3 [value]
      ring
    · omega

theorem uvarint_putUvarint (fits : n < 2 ^ 64) (rest : List UInt8) :
    uvarint (putUvarint 10 n ++ rest) = some (n, (putUvarint 10 n).length) := by
  have whole := uvarintFrom_putUvarint (i := 0) (zero_add 10) (by omega) fits 0 rest
  simpa [uvarint] using whole

/-! Signed varints: the sign goes into the lowest bit. -/

def zigzag (x : Int64) : Nat :=
  if 0 ≤ x.toInt then (2 * x.toInt).toNat else (-2 * x.toInt - 1).toNat

def unzigzag (n : Nat) : Int64 :=
  if n % 2 = 0 then Int64.ofInt (n / 2) else Int64.ofInt (-(n / 2) - 1)

def putVarint (x : Int64) : List UInt8 := putUvarint 10 (zigzag x)

theorem zigzag_lt (x : Int64) : zigzag x < 2 ^ 64 := by
  have low := x.le_toInt
  have high := x.toInt_lt
  unfold zigzag
  split <;> omega

theorem unzigzag_zigzag (x : Int64) : unzigzag (zigzag x) = x := by
  have back : ∀ y : Int, y = x.toInt → Int64.ofInt y = x := by
    rintro _ rfl
    exact x.ofInt_toInt
  unfold zigzag unzigzag
  split
  · rw [if_pos (by omega)]
    exact back _ (by omega)
  · rw [if_neg (by omega)]
    exact back _ (by omega)

/-! A position in a buffer that is lost for good once a number cannot be read. -/

def readUvarint : Option (List UInt8) → Nat × Option (List UInt8)
  | none => (0, none)
  | some buf =>
    match uvarint buf with
    | none => (0, none)
    | some (n, used) => (n, some (buf.drop used))

def readVarint : Option (List UInt8) → Int64 × Option (List UInt8)
  | none => (0, none)
  | some buf =>
    match uvarint buf with
    | none => (-1, none)
    | some (n, used) => (unzigzag n, some (buf.drop used))

theorem readUvarint_put (fits : n < 2 ^ 64) (rest : List UInt8) :
    readUvarint (some (putUvarint 10 n ++ rest)) = (n, some rest) := by
  simp [readUvarint, uvarint_putUvarint fits]

theorem readVarint_put (x : Int64) (rest : List UInt8) :
    readVarint (some (putVarint x ++ rest)) = (x, some rest) := by
  simp [readVarint, putVarint, uvarint_putUvarint (zigzag_lt x), unzigzag_zigzag]

end LinearNats.LittleEndian
