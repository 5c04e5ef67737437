import Mathlib.Algebra.Ring.Nat

/-!
# Numbers as little-endian bytes

`digits w n` lists the `w` lowest base-256 digits of `n`, lowest first; `value` reads such a list back. The two are
inverse up to the width (`value_digits`, `digits_value`), so the byte lists of length `w` are exactly the bit vectors
of `8 * w` bits (`ofBitVec`, `toBitVec`).
-/

namespace LittleEndian

/-- The `w` lowest base-256 digits of `n`, lowest first. -/
def digits : Nat → Nat → List UInt8
  | 0, _ => []
  | w + 1, n => UInt8.ofNat n :: digits w (n / 256)

/-- The number with the given base-256 digits. -/
def value : List UInt8 → Nat
  | [] => 0
  | b :: bs => b.toNat + 256 * value bs

@[simp] theorem length_digits : ∀ w n : Nat, (digits w n).length = w
  | 0, _ => rfl
  | w + 1, n => by simp [digits, length_digits w]

/-- Reading the digits back loses what does not fit in the width. -/
theorem value_digits : ∀ w n : Nat, value (digits w n) = n % 256 ^ w
  | 0, n => by simp [digits, value, Nat.mod_one]
  | w + 1, n => by
    rw [digits, value, value_digits w, UInt8.toNat_ofNat', show 2 ^ 8 = 256 from rfl, Nat.pow_succ', Nat.mod_mul]

/-- A list of bytes is the list of digits of its value. -/
theorem digits_value : ∀ bs : List UInt8, digits bs.length (value bs) = bs
  | [] => rfl
  | b :: bs => by
    have hb : b.toNat < 256 := b.toNat_lt
    have hlow : UInt8.ofNat (b.toNat + 256 * value bs) = b := by
      apply UInt8.toNat_inj.mp
      rw [UInt8.toNat_ofNat']
      omega
    have hhigh : (b.toNat + 256 * value bs) / 256 = value bs := by omega
    rw [List.length_cons, value, digits, hlow, hhigh, digits_value bs]

theorem value_lt : ∀ bs : List UInt8, value bs < 256 ^ bs.length
  | [] => by simp [value]
  | b :: bs => by
    have hb : b.toNat < 256 := b.toNat_lt
    have ih := value_lt bs
    rw [value, List.length_cons, Nat.pow_succ]
    omega

/-- Digits above the width do not matter. -/
theorem digits_mod (w n : Nat) : digits w (n % 256 ^ w) = digits w n := by
  have h := digits_value (digits w n)
  rwa [length_digits, value_digits] at h

/-! ## Bit vectors -/

theorem two_pow_eight_mul (w : Nat) : 2 ^ (8 * w) = 256 ^ w := by
  rw [Nat.pow_mul]

/-- The bytes of a bit vector, lowest first. -/
def ofBitVec {w : Nat} (x : BitVec (8 * w)) : List UInt8 := digits w x.toNat

/-- The bit vector with the given bytes, lowest first. -/
def toBitVec (w : Nat) (bs : List UInt8) : BitVec (8 * w) := BitVec.ofNat (8 * w) (value bs)

@[simp] theorem length_ofBitVec {w : Nat} (x : BitVec (8 * w)) : (ofBitVec x).length = w := by simp [ofBitVec]

@[simp] theorem toBitVec_ofBitVec {w : Nat} (x : BitVec (8 * w)) : toBitVec w (ofBitVec x) = x := by
  apply BitVec.eq_of_toNat_eq
  have hx : x.toNat < 256 ^ w := by rw [← two_pow_eight_mul]; exact x.isLt
  rw [toBitVec, ofBitVec, value_digits, BitVec.toNat_ofNat, two_pow_eight_mul, Nat.mod_mod, Nat.mod_eq_of_lt hx]

theorem ofBitVec_toBitVec {w : Nat} {bs : List UInt8} (h : bs.length = w) : ofBitVec (toBitVec w bs) = bs := by
  subst h
  have hv : value bs % 2 ^ (8 * bs.length) = value bs := by
    rw [two_pow_eight_mul]; exact Nat.mod_eq_of_lt (value_lt bs)
  rw [ofBitVec, toBitVec, BitVec.toNat_ofNat, hv, digits_value]

end LittleEndian
