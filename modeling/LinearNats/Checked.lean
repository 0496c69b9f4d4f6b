import LinearNats.LittleEndian

/-! Decoders that may stop: with an error they return, or with an index out of range. -/
namespace LinearNats.Checked
open LittleEndian

inductive Stop (ε : Type) where
  | fail (err : ε)
  | panic
  deriving DecidableEq

variable {ε α β : Type}

def need (err : ε) (n : Nat) (buf : List UInt8) : Except (Stop ε) Unit :=
  if buf.length < n then .error (.fail err) else .ok ()

def uint (width : Nat) (buf : List UInt8) : Except (Stop ε) Nat :=
  if buf.length < width then .error .panic else .ok (getUint (buf.take width))

def from_ (n : Nat) (buf : List UInt8) : Except (Stop ε) (List UInt8) :=
  if buf.length < n then .error .panic else .ok (buf.drop n)

def sized (err : ε) (width : Nat) (buf : List UInt8) : Except (Stop ε) (List UInt8 × List UInt8) := do
  let n ← uint width buf
  let buf ← from_ width buf
  need err n buf
  return (buf.take n, buf.drop n)

def Returns (r : Except (Stop ε) α) : Prop := r ≠ .error .panic

@[simp] theorem ok_bind (a : α) (f : α → Except (Stop ε) β) : (Except.ok a >>= f) = f a := rfl

@[simp] theorem error_bind (s : Stop ε) (f : α → Except (Stop ε) β) :
    (Except.error s >>= f) = .error s := rfl

theorem returns_ok (a : α) : Returns (.ok a : Except (Stop ε) α) := nofun

theorem returns_need (err : ε) (n : Nat) (buf : List UInt8) : Returns (need err n buf) := by
  unfold need Returns
  split <;> simp

theorem Returns.bind {r : Except (Stop ε) α} {f : α → Except (Stop ε) β} (first : Returns r)
    (rest : ∀ a, r = .ok a → Returns (f a)) : Returns (r >>= f) := by
  cases r with
  | error s => exact fun stopped => first (by simpa using stopped)
  | ok a => exact rest a rfl

variable {n width : Nat} {buf : List UInt8}

theorem of_need {err : ε} (passed : need err n buf = .ok ()) : n ≤ buf.length := by
  unfold need at passed
  split at passed
  · contradiction
  · omega

theorem uint_ok (fits : width ≤ buf.length) :
    (uint width buf : Except (Stop ε) Nat) = .ok (getUint (buf.take width)) :=
  if_neg (by omega)

theorem from_ok (fits : n ≤ buf.length) : (from_ n buf : Except (Stop ε) _) = .ok (buf.drop n) :=
  if_neg (by omega)

theorem returns_sized (err : ε) (fits : width ≤ buf.length) : Returns (sized err width buf) := by
  rw [sized, uint_ok fits, ok_bind, from_ok fits, ok_bind]
  exact (returns_need err _ _).bind (fun _ _ => returns_ok _)

/-! What was written is read back. -/

theorem need_append (err : ε) {bytes rest : List UInt8} (fits : n ≤ bytes.length) :
    need err n (bytes ++ rest) = .ok () :=
  if_neg (by simp; omega)

theorem uint_putUint (fits : n < 256 ^ width) (rest : List UInt8) :
    (uint width (putUint width n ++ rest) : Except (Stop ε) Nat) = .ok n := by
  rw [uint_ok (by simp), List.take_left' (by simp), getUint_putUint_of_lt fits]

theorem from_append (bytes rest : List UInt8) :
    (from_ bytes.length (bytes ++ rest) : Except (Stop ε) _) = .ok rest := by
  rw [from_ok (by simp), List.drop_left]

theorem from_putUint (width n : Nat) (rest : List UInt8) :
    (from_ width (putUint width n ++ rest) : Except (Stop ε) _) = .ok rest := by
  simpa using from_append (ε := ε) (putUint width n) rest

theorem sized_append (err : ε) {bytes : List UInt8} (fits : bytes.length < 256 ^ width)
    (rest : List UInt8) :
    sized err width (putUint width bytes.length ++ (bytes ++ rest)) = .ok (bytes, rest) := by
  simp [sized, uint_putUint fits, from_putUint, need_append err (le_refl _), pure, Except.pure]

end LinearNats.Checked
