import Borsh.Base.Outcome
import Borsh.Utils

/-!
# `to_bytes` and `from_bytes`

The overloads of `converters.h`. A `to_bytes` appends to the buffer; when it throws, the buffer keeps what was written
before. A `from_bytes` works on the object it assigns and on the cursor, an offset into the buffer's bytes. Reading a
byte past the end of them is the fault `outOfRange`.

The loads of `from_bytes` are typed: `*reinterpret_cast<const T*>(buffer)`. They are taken as loads of raw bytes at any
address. The alignment of `T` is left out, although an optimised build may rely on it (for `__int128`, say).
-/

namespace Borsh

/-- The exceptions the library throws, with their texts. -/
inductive Exn where
  | invalidArgument (what : String)
  | runtimeError (what : String)
  deriving DecidableEq, Repr

/-- Where the model stops without a result: a read past the end of the input, a `bool` read from a byte that is neither
`0` nor `1`, and a recursion deeper than the stack. The code checks for none of them. `outOfRange` and `invalidBool`
stand for undefined behaviour: they are no ends of the code, which may go on from there in any way. -/
inductive Fault where
  | outOfRange
  | invalidBool
  | stackOverflow
  deriving DecidableEq, Repr

abbrev Run (σ : Type) := Outcome Exn Fault σ

/-! ## `to_bytes` -/

/-- `to_bytes(IntegralType)`. The second `append` is not in an `else`. -/
def toBytesIntegral (host : Endian) (t : IntegralType) (value : t.Val) (buffer : List UInt8) : Run (List UInt8) :=
  let buffer := if host = .big then append host buffer t (byteswap host t value) else buffer
  .done (append host buffer t value)

/-- The IEEE 754 layout: fraction bits, then exponent bits, then the sign. -/
def FloatType.fractionBits : FloatType → Nat
  | .float => 23
  | .double => 52

def FloatType.exponentBits : FloatType → Nat
  | .float => 8
  | .double => 11

/-- `std::isnan` on the bit pattern: all exponent bits are set and the fraction is not zero. -/
def isNaN {f : FloatType} (value : f.Val) : Bool :=
  value.bits.toNat / 2 ^ f.fractionBits % 2 ^ f.exponentBits == 2 ^ f.exponentBits - 1 &&
    value.bits.toNat % 2 ^ f.fractionBits != 0

/-- What `to_bytes(FloatType)` throws. -/
def nanNotAllowed : Exn := .invalidArgument "NaN is not allowed"

/-- `to_bytes(FloatType)`. -/
def toBytesFloat (host : Endian) (f : FloatType) (value : f.Val) (buffer : List UInt8) : Run (List UInt8) :=
  if isNaN value then .thrown nanNotAllowed buffer
  else
    let int := IntegralType.int .signed f.width
    let buffer := if host = .big then append host buffer int (byteswap host int (floatToInt value)) else buffer
    .done (append host buffer int (floatToInt value))

/-- `static_cast<int8_t>(c)`, then the conversion to `uint8_t` by `push_back`. -/
def charToByte (c : UInt8) : UInt8 := c.toInt8.toUInt8

/-- `to_bytes(StringType)`. -/
def toBytesString (host : Endian) (value : List UInt8) (buffer : List UInt8) : Run (List UInt8) :=
  Outcome.forEach (fun c buffer => .done (buffer ++ [charToByte c])) value
    (append host buffer int32 (toInt32 value.length))

/-- The overloads for scalars. -/
def toBytes (host : Endian) : (s : ScalarType) → s.Val → List UInt8 → Run (List UInt8)
  | .integral t, value, buffer => toBytesIntegral host t value buffer
  | .floating f, value, buffer => toBytesFloat host f value buffer
  | .string, value, buffer => toBytesString host value buffer

/-- `to_bytes(ScalarArrayType)` and `to_bytes(ScalarStdArrayType)`, whose bodies are the same. -/
def toBytesArray (host : Endian) (s : ScalarType) {n : Nat} (array : List.Vector s.Val n) (buffer : List UInt8) :
    Run (List UInt8) :=
  Outcome.forEach (toBytes host s) array.toList buffer

/-! ## `from_bytes` -/

/-- `*reinterpret_cast<const T*>(buffer)` with `sizeof(T) = n`: the bytes it reads, handed to `use`. -/
def load {σ : Type} (mem : List UInt8) (p n : Nat) (use : List UInt8 → Run σ) : Run σ :=
  if p + n ≤ mem.length then use ((mem.drop p).take n) else .fault .outOfRange

/-- `from_bytes(NumericType)`, at an integral type. -/
def fromBytesIntegral (host : Endian) (t : IntegralType) (mem : List UInt8) : t.Val × Nat → Run (t.Val × Nat)
  | (_, p) => load mem p t.size fun bytes =>
    match ofObjectBytes host t bytes with
    | some value => .done (if host = .big then byteswap host t value else value, p + t.size)
    | none => .fault .invalidBool

/-- `from_bytes(FloatType)`. -/
def fromBytesFloat (host : Endian) (f : FloatType) (mem : List UInt8) : f.Val × Nat → Run (f.Val × Nat)
  | (_, p) => load mem p f.size fun bytes =>
    let value := floatOfObjectBytes host f bytes
    .done (if host = .big then intToFloat (byteswap host (.int .signed f.width) (floatToInt value)) else value,
      p + f.size)

/-- `*reinterpret_cast<const int32_t*>(buffer)`. -/
def lengthOfBytes (host : Endian) (bytes : List UInt8) : int32.Val := LittleEndian.toBitVec 4 (host.order bytes)

/-- How often `for (int32_t i = 0; i < length; ++i)` runs its body: not at all for a negative length. -/
def loopCount (length : int32.Val) : Nat := length.toInt.toNat

/-- `from_bytes(StringType)`. A character is kept as the byte it is cast from. -/
def fromBytesString (host : Endian) (mem : List UInt8) : List UInt8 × Nat → Run (List UInt8 × Nat)
  | (_, p) => load mem p int32.size fun bytes =>
    Outcome.times
      (fun (value, p) => match mem[p]? with
        | some c => .done (value ++ [c], p + 1)
        | none => .fault .outOfRange)
      (loopCount (lengthOfBytes host bytes)) ([], p + int32.size)

/-- The overloads for scalars. -/
def fromBytes (host : Endian) (mem : List UInt8) : (s : ScalarType) → s.Val × Nat → Run (s.Val × Nat)
  | .integral t, q => fromBytesIntegral host t mem q
  | .floating f, q => fromBytesFloat host f mem q
  | .string, q => fromBytesString host mem q

/-- `from_bytes` for C arrays and for `std::array`, whose bodies are the same. -/
def fromBytesArray (host : Endian) (mem : List UInt8) (s : ScalarType) {n : Nat} :
    List.Vector s.Val n × Nat → Run (List.Vector s.Val n × Nat) :=
  Outcome.updateEach (fromBytes host mem s)

end Borsh
