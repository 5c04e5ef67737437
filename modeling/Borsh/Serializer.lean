import Borsh.Converters

/-!
# The `Serializer`

`call` is `operator()`, `serializeWith` the overloads `serialize(value, Serializer&)` and `visit` the member function
for objects that are not `const`, each with the branches its `if constexpr` chain takes. They call each other:
`operator()` calls `visit`, which calls `serialize`, which calls `operator()`. `visit n` may open `n` calls of itself
before the stack overflows.

`callConst`, `serializeWithConst` and `visitConst` are the same functions as the compiler instantiates them for an
object that is `const`. A struct takes this path when its `serialize` accepts a `const` struct.

`serialize`, `serializeConst` and `deserialize` are the entry points of `templates.h`.
-/

namespace Borsh

inductive SerializerDirection where
  | serialize
  | deserialize
  deriving DecidableEq, Repr

/-- `Serializer`: `bufferPointer` is `bufferPointerReference - buffer.data()`. -/
structure Serializer where
  direction : SerializerDirection
  buffer : List UInt8
  bufferPointer : Nat
  deriving DecidableEq, Repr

def Serializer.withBuffer (s : Serializer) (buffer : List UInt8) : Serializer := { s with buffer }

def Serializer.withPointer (s : Serializer) (bufferPointer : Nat) : Serializer := { s with bufferPointer }

/-- What a function does to an object it takes by reference, and to the serializer. -/
abbrev Visitor := (t : Ty) → t.Val × Serializer → Run (t.Val × Serializer)

section Dispatch

variable (host : Endian) (visit : Visitor)

/-- `operator()(Args&... args)`: `(visit(args), ...)`. -/
def call : (ts : Pack) → ts.Val × Serializer → Run (ts.Val × Serializer)
  | .nil, q => .done q
  | .cons t ts, ((value, values), s) =>
    ((visit t (value, s)).map fun (value, s) => ((value, values), s)).bind fun ((value, values), s) =>
      (call ts (values, s)).map fun (values, s) => ((value, values), s)

/-- `serializer(value)`. -/
def callOne (t : Ty) : t.Val × Serializer → Run (t.Val × Serializer)
  | (value, s) => (call visit (.cons t .nil) ((value, ()), s)).map fun ((value, _), s) => (value, s)

/-- `serialize(value, Serializer&)`: a struct has its own, which passes the fields; the library's overloads pass the
object itself. -/
def serializeWith : Visitor
  | .struct fields => call visit fields
  | .scalar st => callOne visit (.scalar st)
  | .cArray st n => callOne visit (.cArray st n)
  | .stdArray t n => callOne visit (.stdArray t n)
  | .vector t => callOne visit (.vector t)

/-- The body of `for (auto item : value)`: `serialize` for an element that is `SerializableNonScalar`, `to_bytes` for
the others. The item is a copy. -/
def serializeItem : (t : Ty) → t.Val → Serializer → Run Serializer
  | .scalar st, item, s => (toBytes host st item s.buffer).map s.withBuffer
  | .cArray st _, item, s => (toBytesArray host st item s.buffer).map s.withBuffer
  | t, item, s => (serializeWith visit t (item, s)).map Prod.snd

/-- `visit(T&)`, the `Serialize` branch. -/
def visitSerialize : Visitor
  | .vector t, (value, s) =>
    (Outcome.forEach (serializeItem host visit t) value
      (s.withBuffer (append host s.buffer int32 (toInt32 value.length)))).map fun s => (value, s)
  | .scalar st, (value, s) => (toBytes host st value s.buffer).map fun buffer => (value, s.withBuffer buffer)
  | .cArray st _, (value, s) => (toBytesArray host st value s.buffer).map fun buffer => (value, s.withBuffer buffer)
  | .stdArray (.scalar st) _, (value, s) =>
    (toBytesArray host st value s.buffer).map fun buffer => (value, s.withBuffer buffer)
  | .stdArray t n, q => serializeWith visit (.stdArray t n) q
  | .struct fields, q => serializeWith visit (.struct fields) q

/-- `T::value_type element;` and its assignment by `serialize` or `from_bytes`. -/
def deserializeElement : (t : Ty) → Serializer → Run (t.Val × Serializer)
  | .scalar st, s =>
    (fromBytes host s.buffer st (st.initial, s.bufferPointer)).map fun (element, p) => (element, s.withPointer p)
  | .cArray st n, s =>
    (fromBytesArray host s.buffer st ((Ty.cArray st n).initial, s.bufferPointer)).map fun (element, p) =>
      (element, s.withPointer p)
  | t, s => serializeWith visit t (t.initial, s)

/-- `visit(T&)`, the `Deserialize` branch. -/
def visitDeserialize : Visitor
  | .vector t, (_, s) => load s.buffer s.bufferPointer int32.size fun bytes =>
    Outcome.times
      (fun (value, s) => (deserializeElement host visit t s).leave
        (fun (element, s) => (value ++ [element], s)) (fun (_, s) => (value, s)))
      (loopCount (lengthOfBytes host bytes)) ([], s.withPointer (s.bufferPointer + int32.size))
  | .scalar st, (value, s) =>
    (fromBytes host s.buffer st (value, s.bufferPointer)).map fun (value, p) => (value, s.withPointer p)
  | .cArray st _, (value, s) =>
    (fromBytesArray host s.buffer st (value, s.bufferPointer)).map fun (value, p) => (value, s.withPointer p)
  | .stdArray (.scalar st) _, (value, s) =>
    (fromBytesArray host s.buffer st (value, s.bufferPointer)).map fun (value, p) => (value, s.withPointer p)
  | .stdArray t n, q => serializeWith visit (.stdArray t n) q
  | .struct fields, q => serializeWith visit (.struct fields) q

end Dispatch

/-- `visit(T&)`, when the stack has room for `n` calls of it. -/
def visit (host : Endian) : Nat → Visitor
  | 0, _, _ => .fault .stackOverflow
  | n + 1, t, (value, s) =>
    match s.direction with
    | .serialize => visitSerialize host (visit host n) t (value, s)
    | .deserialize => visitDeserialize host (visit host n) t (value, s)

/-! ## Objects that are `const` -/

/-- What a function that reads an object does to the serializer. -/
abbrev ConstVisitor := (t : Ty) → t.Val → Serializer → Run Serializer

section ConstDispatch

variable (host : Endian) (visit : Visitor) (visitConst : ConstVisitor)

/-- `operator()(Args&... args)`, with `const` arguments. -/
def callConst : (ts : Pack) → ts.Val → Serializer → Run Serializer
  | .nil, _, s => .done s
  | .cons t ts, (value, values), s => (visitConst t value s).bind (callConst ts values)

/-- `serialize(value, Serializer&)`, with a `const` value: the fields of a struct are `const` too. There is no such
overload for `std::array`. -/
def serializeWithConst : ConstVisitor
  | .struct fields, value, s => callConst visitConst fields value s
  | t, value, s => callConst visitConst (.cons t .nil) (value, ()) s

/-- `visit(const T&)`, the `Serialize` branch. The items of a vector are copies that are not `const`. -/
def visitConstSerialize : ConstVisitor
  | .vector t, value, s =>
    Outcome.forEach (serializeItem host visit t) value
      (s.withBuffer (append host s.buffer int32 (toInt32 value.length)))
  | .scalar st, value, s => (toBytes host st value s.buffer).map s.withBuffer
  | .cArray st _, value, s => (toBytesArray host st value s.buffer).map s.withBuffer
  | .stdArray (.scalar st) _, value, s => (toBytesArray host st value s.buffer).map s.withBuffer
  | .stdArray t n, value, s => serializeWithConst visitConst (.stdArray t n) value s
  | .struct fields, value, s => serializeWithConst visitConst (.struct fields) value s

end ConstDispatch

/-- `visit(const T&)`, when the stack has room for `n` calls of `visit`. -/
def visitConst (host : Endian) : Nat → ConstVisitor
  | 0, _, _, _ => .fault .stackOverflow
  | n + 1, t, value, s =>
    match s.direction with
    | .serialize => visitConstSerialize host (visit host n) (visitConst host n) t value s
    | .deserialize => .thrown (.runtimeError "Cannot deserialize into a const object") s

/-! ## Dispatch -/

@[simp] theorem withPointer_buffer (s : Serializer) (p : Nat) : (s.withPointer p).buffer = s.buffer := rfl

@[simp] theorem withPointer_bufferPointer (s : Serializer) (p : Nat) : (s.withPointer p).bufferPointer = p := rfl

@[simp] theorem withPointer_withPointer (s : Serializer) (p p' : Nat) :
    (s.withPointer p).withPointer p' = s.withPointer p' := rfl

/-- `serializer(value)` is one `visit`. -/
theorem callOne_eq (visit : Visitor) (t : Ty) (q : t.Val × Serializer) : callOne visit t q = visit t q := by
  obtain ⟨value, s⟩ := q
  simp only [callOne, call]
  cases visit t (value, s) <;> simp

/-- A struct is visited by passing its fields on. -/
theorem visit_struct (host : Endian) (n : Nat) (fields : Pack) (q : (Ty.struct fields).Val × Serializer) :
    visit host (n + 1) (.struct fields) q = call (visit host n) fields q := by
  obtain ⟨value, s⟩ := q
  simp only [visit]
  cases s.direction <;> rfl

theorem Ty.scalar_or_not (t : Ty) : (∃ st, t = .scalar st) ∨ t.isScalar = false := by
  cases t with
  | scalar st => exact Or.inl ⟨st, rfl⟩
  | _ => exact Or.inr rfl

theorem visitSerialize_stdArray (host : Endian) (visit : Visitor) {t : Ty} (ht : t.isScalar = false) (n : Nat)
    (q : (Ty.stdArray t n).Val × Serializer) :
    visitSerialize host visit (.stdArray t n) q = serializeWith visit (.stdArray t n) q := by
  cases t with
  | scalar st => cases ht
  | _ => rfl

theorem visitDeserialize_stdArray (host : Endian) (visit : Visitor) {t : Ty} (ht : t.isScalar = false) (n : Nat)
    (q : (Ty.stdArray t n).Val × Serializer) :
    visitDeserialize host visit (.stdArray t n) q = serializeWith visit (.stdArray t n) q := by
  cases t with
  | scalar st => cases ht
  | _ => rfl

theorem visitConstSerialize_stdArray (host : Endian) (visit : Visitor) (visitConst : ConstVisitor) {t : Ty}
    (ht : t.isScalar = false) (n : Nat) (value : (Ty.stdArray t n).Val) (s : Serializer) :
    visitConstSerialize host visit visitConst (.stdArray t n) value s =
      serializeWithConst visitConst (.stdArray t n) value s := by
  cases t with
  | scalar st => cases ht
  | _ => rfl

/-- A `std::array` whose elements are not scalars is passed on as it is. -/
theorem visit_stdArray (host : Endian) {t : Ty} (ht : t.isScalar = false) (m n : Nat)
    (q : (Ty.stdArray t m).Val × Serializer) :
    visit host (n + 1) (.stdArray t m) q = visit host n (.stdArray t m) q := by
  rw [← callOne_eq (visit host n) (.stdArray t m) q]
  obtain ⟨value, s⟩ := q
  simp only [visit]
  cases t with
  | scalar st => cases ht
  | _ => cases s.direction <;> rfl

/-- `visit` on a `std::array` whose elements are not scalars calls itself on the same object until the stack is
full. -/
theorem visit_stdArray_overflow (host : Endian) {t : Ty} (ht : t.isScalar = false) (m : Nat) :
    ∀ (n : Nat) (q : (Ty.stdArray t m).Val × Serializer), visit host n (.stdArray t m) q = .fault .stackOverflow
  | 0, _ => rfl
  | n + 1, q => by rw [visit_stdArray host ht, visit_stdArray_overflow host ht m n q]

/-- When every deep enough `visit` of `t` ends in the same way, so does `serialize(value, Serializer&)`. -/
theorem serializeWith_of_visit {host : Endian} {t : Ty} {q : t.Val × Serializer} {o : Run (t.Val × Serializer)}
    (h : ∀ n, t.depth ≤ n → visit host n t q = o) {n : Nat} (hn : t.depth ≤ n) :
    serializeWith (visit host n) t q = o := by
  cases t with
  | struct fields => rw [← h (n + 1) (Nat.le_succ_of_le hn), visit_struct]; rfl
  | scalar st => exact (callOne_eq _ _ q).trans (h n hn)
  | cArray st m => exact (callOne_eq _ _ q).trans (h n hn)
  | stdArray t m => exact (callOne_eq _ _ q).trans (h n hn)
  | vector t => exact (callOne_eq _ _ q).trans (h n hn)

/-! ## `templates.h` -/

/-- `serialize(const T&)` for scalars and C arrays, `serialize(T&)` for the other types. A throw destroys the local
buffer, which is the state shown here. -/
def serialize (host : Endian) (n : Nat) : (t : Ty) → t.Val → Run (List UInt8)
  | .scalar st, value => toBytes host st value []
  | .cArray st _, value => toBytesArray host st value []
  | t, object => (serializeWith (visit host n) t (object, ⟨.serialize, [], 0⟩)).map fun (_, s) => s.buffer

/-- `serialize` of a `const` object: `serialize(const T&)` for scalars and arrays of scalars, `serialize(T&)` with a
`const` type for `T` for the others. -/
def serializeConst (host : Endian) (n : Nat) : (t : Ty) → t.Val → Run (List UInt8)
  | .scalar st, value => toBytes host st value []
  | .cArray st _, value => toBytesArray host st value []
  | .stdArray (.scalar st) _, value => toBytesArray host st value []
  | t, object => (serializeWithConst (visitConst host n) t object ⟨.serialize, [], 0⟩).map Serializer.buffer

/-- `deserialize<T>(buffer)`: the value, and where the local cursor `data` ends. A C array is the caller's, here a fresh
one. -/
def deserialize (host : Endian) (n : Nat) (buffer : List UInt8) : (t : Ty) → Run (t.Val × Nat)
  | .scalar st => fromBytes host buffer st (st.initial, 0)
  | .cArray st m => fromBytesArray host buffer st ((Ty.cArray st m).initial, 0)
  | t => (serializeWith (visit host n) t (t.initial, ⟨.deserialize, buffer, 0⟩)).map fun (value, s) =>
    (value, s.bufferPointer)

end Borsh
