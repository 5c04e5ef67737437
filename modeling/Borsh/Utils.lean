import Borsh.Base.LittleEndian
import Borsh.Concepts

/-!
# Object representations and `utils.h`

`objectBytes host t x` is the object representation of `x` on a host whose `std::endian::native` is `host`;
`ofObjectBytes` reads one back. `byteswap`, `floatToInt`, `intToFloat` and `append` are the functions of `utils.h`.
-/

namespace Borsh

/-- `std::endian::native`. -/
inductive Endian where
  | little | big
  deriving DecidableEq, Repr

/-- Lay out bytes, given lowest first, in the order of the host; and back. -/
def Endian.order : Endian → List UInt8 → List UInt8
  | .little, bs => bs
  | .big, bs => bs.reverse

/-- The object representation of an integral value. -/
def objectBytes (host : Endian) : (t : IntegralType) → t.Val → List UInt8
  | .int _ _, x => host.order (LittleEndian.ofBitVec x)
  | .bool, b => [if b then 1 else 0]

/-- The integral value with this object representation. A byte that is neither `0` nor `1` is no `bool`: reading it
is undefined. -/
def ofObjectBytes (host : Endian) : (t : IntegralType) → List UInt8 → Option t.Val
  | .int _ w, bs => some (LittleEndian.toBitVec w.bytes (host.order bs))
  | .bool, bs => if bs = [0] then some false else if bs = [1] then some true else none

/-- The float with this object representation. -/
def floatOfObjectBytes (host : Endian) (f : FloatType) (bs : List UInt8) : f.Val :=
  ⟨LittleEndian.toBitVec f.size (host.order bs)⟩

/-- `float_to_int`: a `bit_cast`. -/
def floatToInt {f : FloatType} (value : f.Val) : (IntegralType.int .signed f.width).Val := value.bits

/-- `int_to_float`: a `bit_cast`. -/
def intToFloat {f : FloatType} (value : (IntegralType.int .signed f.width).Val) : f.Val := ⟨value⟩

/-- `byteswap`: the value whose representation is the reversed one. The one byte of a `bool` stays as it is. -/
def byteswap (host : Endian) : (t : IntegralType) → t.Val → t.Val
  | .int sign w, x => LittleEndian.toBitVec w.bytes (host.order (objectBytes host (.int sign w) x).reverse)
  | .bool, b => b

/-- `append`: the object representation of `value` at the end of the buffer. -/
def append (host : Endian) (buffer : List UInt8) (t : IntegralType) (value : t.Val) : List UInt8 :=
  buffer ++ objectBytes host t value

/-- `int32_t`. -/
abbrev int32 : IntegralType := .int .signed .w32

/-- `static_cast<int32_t>` of a `size_t`. -/
def toInt32 (n : Nat) : int32.Val := BitVec.ofNat 32 n

/-- `INT32_MAX`. -/
def int32Max : Nat := 2147483647

/-! ## Reading a representation back -/

@[simp] theorem Endian.length_order (host : Endian) (bs : List UInt8) : (host.order bs).length = bs.length := by
  cases host <;> simp [order]

@[simp] theorem Endian.order_order (host : Endian) (bs : List UInt8) : host.order (host.order bs) = bs := by
  cases host <;> simp [order]

@[simp] theorem length_objectBytes (host : Endian) : ∀ (t : IntegralType) (x : t.Val),
    (objectBytes host t x).length = t.size
  | .int _ w, x => by simp [objectBytes, IntegralType.size]
  | .bool, b => rfl

@[simp] theorem ofObjectBytes_objectBytes (host : Endian) : ∀ (t : IntegralType) (x : t.Val),
    ofObjectBytes host t (objectBytes host t x) = some x
  | .int _ w, x => by simp [ofObjectBytes, objectBytes]
  | .bool, false => rfl
  | .bool, true => rfl

/-- Only the representation of a value is read as that value. -/
theorem objectBytes_of_ofObjectBytes {host : Endian} : ∀ {t : IntegralType} {bs : List UInt8} {x : t.Val},
    bs.length = t.size → ofObjectBytes host t bs = some x → objectBytes host t x = bs
  | .int _ w, bs, x, hl, h => by
    cases h
    have hw : (host.order bs).length = w.bytes := by rw [Endian.length_order]; exact hl
    rw [objectBytes, LittleEndian.ofBitVec_toBitVec hw, Endian.order_order]
  | .bool, bs, x, _, h => by
    simp only [ofObjectBytes] at h
    split at h
    · rename_i h0; cases h; exact h0.symm
    · split at h
      · rename_i h1; cases h; exact h1.symm
      · cases h

/-- The representation of the swapped value is the reversed representation. -/
theorem objectBytes_byteswap (host : Endian) : ∀ (t : IntegralType) (x : t.Val),
    objectBytes host t (byteswap host t x) = (objectBytes host t x).reverse
  | .int _ w, x => by
    have hl : (host.order (objectBytes host (.int ‹_› w) x).reverse).length = w.bytes := by
      simp [IntegralType.size]
    rw [objectBytes, byteswap, LittleEndian.ofBitVec_toBitVec hl, Endian.order_order]
  | .bool, b => rfl

/-- The big-endian representation is the little-endian one reversed. -/
theorem objectBytes_big : ∀ (t : IntegralType) (x : t.Val),
    objectBytes .big t x = (objectBytes .little t x).reverse
  | .int _ _, _ => rfl
  | .bool, _ => rfl

/-- Swapping what a big-endian host reads gives what a little-endian host reads. -/
theorem byteswap_ofObjectBytes_big : ∀ (t : IntegralType) {bs : List UInt8}, bs.length = t.size →
    (ofObjectBytes .big t bs).map (byteswap .big t) = ofObjectBytes .little t bs
  | .int _ w, bs, hl => by
    have hw : bs.reverse.length = w.bytes := by rw [List.length_reverse]; exact hl
    simp [ofObjectBytes, byteswap, objectBytes, Endian.order, LittleEndian.ofBitVec_toBitVec hw]
  | .bool, bs, _ => by
    simp only [ofObjectBytes]
    split
    · rfl
    · split <;> rfl

end Borsh
