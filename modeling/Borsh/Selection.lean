import Borsh.Concepts

/-!
# What the concepts let through

`concepts.h` decides at compile time which types can be serialized. Its concepts are evaluated here on `CppType`, which
is wider than `Ty`: it has arrays of arrays and of unknown bound, arrays and vectors of anything, and classes without a
`serialize` of their own. The concepts and the overloads of `serialize` in `templates.h` refer to each other, and are
the least predicates that do; they come to one recursion on the type (`serializable_iff`).

`const` is left out, as the concepts remove it, and so are specializations of `IsScalar` and classes that contain
themselves.
-/

namespace Borsh

mutual

/-- The types of the objects that a program may pass. -/
inductive CppType where
  | scalar (s : ScalarType)
  | array (t : CppType) (n : Nat)
  | unboundedArray (t : CppType)
  | stdArray (t : CppType) (n : Nat)
  | vector (t : CppType)
  /-- A class without a `serialize` of its own. -/
  | plain
  /-- A class whose own `serialize` passes its fields. -/
  | struct (fields : CppPack)

inductive CppPack where
  | nil
  | cons (t : CppType) (ts : CppPack)

end

def CppPack.toList : CppPack → List CppType
  | .nil => []
  | .cons t ts => t :: ts.toList

/-! ## Scalars and arrays -/

/-- `ScalarType<T>`. -/
def CppType.isScalarType : CppType → Bool
  | .scalar _ => true
  | _ => false

/-- `std::rank_v<T>`. -/
def CppType.rank : CppType → Nat
  | .array t _ => t.rank + 1
  | .unboundedArray t => t.rank + 1
  | _ => 0

/-- `std::extent_v<T>`. -/
def CppType.extent : CppType → Nat
  | .array _ n => n
  | _ => 0

/-- `remove_extent_and_cv_t<T>`. -/
def CppType.removeExtent : CppType → CppType
  | .array t _ => t
  | .unboundedArray t => t
  | t => t

/-- `T::value_type` of a `std::array` or a vector. -/
def CppType.valueType : CppType → CppType
  | .stdArray t _ => t
  | .vector t => t
  | t => t

/-- `is_bounded_array_v<T>`. -/
def CppType.isBoundedArray (t : CppType) : Bool := t.rank == 1 && t.extent != 0

/-- `ScalarArrayType<T>`. -/
def CppType.isScalarArrayType (t : CppType) : Bool := t.isBoundedArray && t.removeExtent.isScalarType

/-- `NonScalarArrayType<T>`. -/
def CppType.isNonScalarArrayType (t : CppType) : Bool := t.isBoundedArray && !t.removeExtent.isScalarType

/-- `ArrayType<T>`. -/
def CppType.isArrayType (t : CppType) : Bool := t.isScalarArrayType || t.isNonScalarArrayType

/-- `is_std_array_v<T>`. -/
def CppType.isStdArray : CppType → Bool
  | .stdArray _ _ => true
  | _ => false

/-- `ScalarStdArrayType<T>`. -/
def CppType.isScalarStdArrayType (t : CppType) : Bool := t.isStdArray && t.valueType.isScalarType

/-- An `ArrayType` is an array of one dimension with a bound. -/
theorem CppType.isArrayType_iff {t : CppType} :
    t.isArrayType = true ↔ ∃ u n, t = .array u n ∧ u.rank = 0 ∧ n ≠ 0 := by
  have hbounded : t.isArrayType = t.isBoundedArray := by
    unfold isArrayType isScalarArrayType isNonScalarArrayType
    cases t.isBoundedArray <;> cases t.removeExtent.isScalarType <;> rfl
  rw [hbounded, isBoundedArray]
  cases t with
  | array u n => simp [rank, extent]
  | _ => simp [extent]

/-! ## What can be serialized -/

mutual

/-- `SerializableElement<T>`: there is an overload of `serialize` for a `T`. The array types among the parameters of a
requires expression are turned into pointers, and for these there is none. -/
inductive SerializableElement : CppType → Prop
  | scalar (s : ScalarType) : SerializableElement (.scalar s)
  | vector {t : CppType} : SerializableVector t → SerializableElement t
  | stdArray {t : CppType} (n : Nat) : Serializable t → SerializableElement (.stdArray t n)
  | struct (fields : CppPack) : SerializableElement (.struct fields)

/-- `SerializableArray<T>`: the overload for arrays of unknown bound takes a `T[]` when `T` is an `ArrayType`. -/
inductive SerializableArray : CppType → Prop
  | intro {t : CppType} : t.isArrayType = true → SerializableElement t.removeExtent → SerializableArray t

/-- `SerializableStdArray<T>`. -/
inductive SerializableStdArray : CppType → Prop
  | intro {t : CppType} (n : Nat) : Serializable t → SerializableElement t → SerializableStdArray (.stdArray t n)

/-- `SerializableVector<T>`. -/
inductive SerializableVector : CppType → Prop
  | element {t : CppType} : SerializableElement t → SerializableVector (.vector t)
  | array {t : CppType} : SerializableArray t → SerializableVector (.vector t)

/-- `SerializableVectorVector<T>`. -/
inductive SerializableVectorVector : CppType → Prop
  | intro {t : CppType} : SerializableVector t → SerializableVectorVector (.vector t)

/-- `Serializable<T>`. -/
inductive Serializable : CppType → Prop
  | element {t : CppType} : SerializableElement t → Serializable t
  | array {t : CppType} : SerializableArray t → Serializable t
  | stdArray {t : CppType} : SerializableStdArray t → Serializable t
  | vector {t : CppType} : SerializableVector t → Serializable t
  | vectorVector {t : CppType} : SerializableVectorVector t → Serializable t

end

mutual

/-- What `SerializableElement<T>` comes to. -/
def CppType.isElement : CppType → Bool
  | .scalar _ | .struct _ => true
  | .array _ _ | .unboundedArray _ | .plain => false
  | .stdArray t _ | .vector t => t.isSerializable

/-- What `Serializable<T>` comes to. -/
def CppType.isSerializable : CppType → Bool
  | .scalar _ | .struct _ => true
  | .unboundedArray _ | .plain => false
  | .array t n => t.rank == 0 && n != 0 && t.isElement
  | .stdArray t _ | .vector t => t.isSerializable

end

theorem CppType.isSerializable_of_isElement : ∀ {t : CppType}, t.isElement = true → t.isSerializable = true
  | .scalar _, _ | .struct _, _ => rfl
  | .stdArray _ _, h | .vector _, h => h

mutual

theorem SerializableElement.isElement : ∀ {t : CppType}, SerializableElement t → t.isElement = true
  | _, .scalar _ | _, .struct _ => rfl
  | _, .vector h => h.isElement
  | _, .stdArray _ h => h.isSerializable

theorem SerializableArray.isSerializable : ∀ {t : CppType}, SerializableArray t → t.isSerializable = true
  | t, .intro harray helement => by
    have helem := helement.isElement
    obtain ⟨u, n, rfl, hrank, hn⟩ := CppType.isArrayType_iff.mp harray
    have hu : u.isElement = true := helem
    simp [CppType.isSerializable, hrank, hn, hu]

theorem SerializableStdArray.isSerializable : ∀ {t : CppType}, SerializableStdArray t → t.isSerializable = true
  | _, .intro _ h _ => h.isSerializable

theorem SerializableVector.isElement : ∀ {t : CppType}, SerializableVector t → t.isElement = true
  | _, .element h => CppType.isSerializable_of_isElement h.isElement
  | _, .array h => h.isSerializable

theorem SerializableVectorVector.isSerializable : ∀ {t : CppType}, SerializableVectorVector t → t.isSerializable = true
  | .vector t, .intro h => by
    have ht : t.isSerializable = true := CppType.isSerializable_of_isElement h.isElement
    exact ht

theorem Serializable.isSerializable : ∀ {t : CppType}, Serializable t → t.isSerializable = true
  | _, .element h => CppType.isSerializable_of_isElement h.isElement
  | _, .array h => h.isSerializable
  | _, .stdArray h => h.isSerializable
  | _, .vector h => CppType.isSerializable_of_isElement h.isElement
  | _, .vectorVector h => h.isSerializable

end

theorem element_or_array : ∀ {t : CppType}, t.isSerializable = true → SerializableElement t ∨ SerializableArray t
  | .scalar s, _ => Or.inl (.scalar s)
  | .struct fields, _ => Or.inl (.struct fields)
  | .stdArray t n, h => by
    have ht : t.isSerializable = true := h
    rcases element_or_array ht with helement | harray
    · exact Or.inl (.stdArray n (.element helement))
    · exact Or.inl (.stdArray n (.array harray))
  | .vector t, h => by
    have ht : t.isSerializable = true := h
    rcases element_or_array ht with helement | harray
    · exact Or.inl (.vector (.element helement))
    · exact Or.inl (.vector (.array harray))
  | .array t n, h => by
    simp only [CppType.isSerializable, Bool.and_eq_true, beq_iff_eq, bne_iff_ne] at h
    obtain ⟨⟨hrank, hn⟩, ht⟩ := h
    have harray : (CppType.array t n).isArrayType = true := CppType.isArrayType_iff.mpr ⟨t, n, rfl, hrank, hn⟩
    rcases element_or_array (CppType.isSerializable_of_isElement ht) with helement | ⟨hinner, _⟩
    · exact Or.inr (.intro harray helement)
    · obtain ⟨u, m, rfl, _⟩ := CppType.isArrayType_iff.mp hinner
      cases hrank

theorem serializableElement_of_isElement {t : CppType} (h : t.isElement = true) : SerializableElement t := by
  rcases element_or_array (CppType.isSerializable_of_isElement h) with helement | ⟨harray, _⟩
  · exact helement
  · obtain ⟨u, n, rfl, _⟩ := CppType.isArrayType_iff.mp harray
    cases h

theorem serializableElement_iff {t : CppType} : SerializableElement t ↔ t.isElement = true :=
  ⟨SerializableElement.isElement, serializableElement_of_isElement⟩

/-- **The concepts come to one recursion on the type.** -/
theorem serializable_iff {t : CppType} : Serializable t ↔ t.isSerializable = true := by
  constructor
  · exact Serializable.isSerializable
  · intro h
    rcases element_or_array h with helement | harray
    · exact .element helement
    · exact .array harray

instance (t : CppType) : Decidable (SerializableElement t) := decidable_of_iff _ serializableElement_iff.symm

instance (t : CppType) : Decidable (Serializable t) := decidable_of_iff _ serializable_iff.symm

-- the assertions of the tests on `char[10]` and on `char[]`
example : Serializable (.array (.scalar (.integral (.int .signed .w8))) 10) := by decide
example : ¬ Serializable (.unboundedArray (.scalar (.integral (.int .signed .w8)))) := by decide

theorem serializableVector_iff {t : CppType} : SerializableVector t ↔ ∃ u, t = .vector u ∧ Serializable u := by
  constructor
  · intro h
    cases h with
    | element h => exact ⟨_, rfl, .element h⟩
    | array h => exact ⟨_, rfl, .array h⟩
  · intro h
    obtain ⟨u, rfl, hu⟩ := h
    rcases element_or_array hu.isSerializable with helement | harray
    · exact .element helement
    · exact .array harray

instance (t : CppType) : Decidable (SerializableVector t) :=
  match t with
  | .vector u => decidable_of_iff (Serializable u) (by simp [serializableVector_iff])
  | .scalar _ | .array _ _ | .unboundedArray _ | .stdArray _ _ | .plain | .struct _ =>
    isFalse (by simp [serializableVector_iff])

/-- `SerializableNonScalar<T>`. -/
def SerializableNonScalar (t : CppType) : Prop := SerializableElement t ∧ t.isScalarType = false

instance (t : CppType) : Decidable (SerializableNonScalar t) := inferInstanceAs (Decidable (_ ∧ _))

/-- `SerializableNonScalarArray<T>`. -/
def SerializableNonScalarArray (t : CppType) : Prop := SerializableArray t ∧ t.removeExtent.isScalarType = false

end Borsh
