import Mathlib.Data.Vector.Basic

/-!
# The types the library serializes

The types of `concepts.h`, with their values: the integral types of 8 to 128 bits and `bool`, `float` and `double` as
bit patterns (`long double` is left out), `std::string`, C arrays of scalars, `std::array`, `std::vector`, and structs
whose user-written `serialize` passes their fields in order to the `Serializer`. `Pack` is an argument pack `Args&...`,
and so also the field list of a struct.

`Ty` is wider than C++ in three places that no program reaches: a C array may have no elements, a C array may be an
element of a vector, and `std::vector<bool>` is a vector of `bool` (its proxy reference has no `to_bytes`).
-/

namespace Borsh

/-- The widths of the integral types. -/
inductive Width where
  | w8 | w16 | w32 | w64 | w128
  deriving DecidableEq, Repr

/-- `sizeof` of an integral type of this width. -/
def Width.bytes : Width → Nat
  | .w8 => 1
  | .w16 => 2
  | .w32 => 4
  | .w64 => 8
  | .w128 => 16

inductive Signedness where
  | signed | unsigned
  deriving DecidableEq, Repr

/-- `IntegralType`. -/
inductive IntegralType where
  | int (sign : Signedness) (w : Width)
  | bool
  deriving DecidableEq, Repr

/-- `FloatType`. -/
inductive FloatType where
  | float | double
  deriving DecidableEq, Repr

/-- `ScalarType`: `NumericType` or `StringType`. -/
inductive ScalarType where
  | integral (t : IntegralType)
  | floating (f : FloatType)
  | string
  deriving DecidableEq, Repr

mutual

/-- The types the concept `Serializable` admits. -/
inductive Ty where
  | scalar (s : ScalarType)
  | cArray (s : ScalarType) (n : Nat)
  | stdArray (t : Ty) (n : Nat)
  | vector (t : Ty)
  | struct (fields : Pack)

/-- A list of types. -/
inductive Pack where
  | nil
  | cons (t : Ty) (ts : Pack)

end

/-! ## Values -/

/-- `sizeof`. -/
def IntegralType.size : IntegralType → Nat
  | .int _ w => w.bytes
  | .bool => 1

/-- The integral type that a float is `bit_cast` to. -/
def FloatType.width : FloatType → Width
  | .float => .w32
  | .double => .w64

/-- `sizeof`. -/
def FloatType.size (f : FloatType) : Nat := f.width.bytes

/-- An integer is its two's complement bits. -/
abbrev IntegralType.Val : IntegralType → Type
  | .int _ w => BitVec (8 * w.bytes)
  | .bool => Bool

/-- A float is its bit pattern. -/
@[ext] structure FloatType.Val (f : FloatType) where
  bits : BitVec (8 * f.size)
  deriving DecidableEq

/-- The characters of a string are kept as their bytes. -/
abbrev ScalarType.Val : ScalarType → Type
  | .integral t => t.Val
  | .floating f => f.Val
  | .string => List UInt8

mutual

@[reducible] def Ty.Val : Ty → Type
  | .scalar s => s.Val
  | .cArray s n => List.Vector s.Val n
  | .stdArray t n => List.Vector t.Val n
  | .vector t => List t.Val
  | .struct fields => fields.Val

/-- One value for each type. -/
@[reducible] def Pack.Val : Pack → Type
  | .nil => Unit
  | .cons t ts => t.Val × ts.Val

end

/-! ## Freshly declared objects -/

def IntegralType.initial : (t : IntegralType) → t.Val
  | .int _ _ => 0
  | .bool => false

def ScalarType.initial : (s : ScalarType) → s.Val
  | .integral t => t.initial
  | .floating _ => ⟨0⟩
  | .string => []

mutual

/-- `T{}`. It also stands for `T element;`, whose scalars C++ leaves indeterminate. -/
def Ty.initial : (t : Ty) → t.Val
  | .scalar s => s.initial
  | .cArray s n => List.Vector.replicate n s.initial
  | .stdArray t n => List.Vector.replicate n t.initial
  | .vector _ => []
  | .struct fields => fields.initial

def Pack.initial : (ts : Pack) → ts.Val
  | .nil => ()
  | .cons t ts => (t.initial, ts.initial)

end

/-! ## The concepts that select a branch -/

/-- `ScalarType<T>`. -/
def Ty.isScalar : Ty → Bool
  | .scalar _ => true
  | _ => false

mutual

/-- No `std::array` in `t` has elements that are not scalars. -/
def Ty.Supported : Ty → Prop
  | .scalar _ | .cArray _ _ => True
  | .stdArray t _ => t.isScalar = true
  | .vector t => t.Supported
  | .struct fields => fields.Supported

def Pack.Supported : Pack → Prop
  | .nil => True
  | .cons t ts => t.Supported ∧ ts.Supported

end

mutual

/-- The calls of `visit` that are open at the same time while an object of type `t` is visited, one at least. -/
def Ty.depth : Ty → Nat
  | .scalar _ | .cArray _ _ => 1
  | .stdArray t _ => 1 + t.depth
  | .vector t => 1 + t.depth
  | .struct fields => 1 + fields.depth

def Pack.depth : Pack → Nat
  | .nil => 0
  | .cons t ts => max t.depth ts.depth

end

theorem Width.bytes_pos (w : Width) : 0 < w.bytes := by cases w <;> decide

theorem IntegralType.size_pos : ∀ t : IntegralType, 0 < t.size
  | .int _ w => w.bytes_pos
  | .bool => Nat.one_pos

theorem FloatType.size_pos (f : FloatType) : 0 < f.size := f.width.bytes_pos

theorem Ty.depth_pos : ∀ t : Ty, 0 < t.depth
  | .scalar _ | .cArray _ _ => Nat.one_pos
  | .stdArray _ _ | .vector _ | .struct _ => by
    rw [Ty.depth]
    omega

/-- The elements of a vector are visited in one call less. -/
theorem Ty.depth_vector {t : Ty} {n : Nat} : (Ty.vector t).depth ≤ n + 1 ↔ t.depth ≤ n := by
  show 1 + t.depth ≤ n + 1 ↔ t.depth ≤ n
  omega

theorem Ty.depth_struct {fields : Pack} {n : Nat} : (Ty.struct fields).depth ≤ n + 1 ↔ fields.depth ≤ n := by
  show 1 + fields.depth ≤ n + 1 ↔ fields.depth ≤ n
  omega

theorem Pack.depth_cons {t : Ty} {ts : Pack} {n : Nat} :
    (Pack.cons t ts).depth ≤ n ↔ t.depth ≤ n ∧ ts.depth ≤ n := by
  show max t.depth ts.depth ≤ n ↔ t.depth ≤ n ∧ ts.depth ≤ n
  omega

end Borsh
