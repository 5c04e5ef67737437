import Borsh.Selection
import Borsh.Serializer

/-!
# What `visit` is instantiated for

`visitCalls` follows the `if constexpr` chains of `visit(T&)`: it lists the types that `visit` is called for in turn, if
what is instantiated compiles. A type is handled when these calls come to an end (`Handled`). The handled types are the
supported ones of the model, but for the three places where `Ty` is wider than C++ (`handled_iff`), and the `visit` of
the model calls itself for the types in the list and for no others (`visit_calls`).
-/

namespace Borsh

/-! ## What `visit` calls -/

/-- The types that `visit` is called for by `serialize(value, Serializer&)`, if there is an overload for a `T`. The one
for arrays takes arrays of unknown bound only. -/
def serializeCalls : CppType → Option (List CppType)
  | .scalar s => some [.scalar s]
  | .array _ _ => none
  | .unboundedArray t => if t.isArrayType then some [.unboundedArray t] else none
  | .stdArray t n => if Serializable t then some [.stdArray t n] else none
  | .vector t => if SerializableVector (.vector t) then some [.vector t] else none
  | .plain => none
  | .struct fields => some fields.toList

/-- There is a `to_bytes` for `auto item : value` in a vector of `T`: the item of a `std::vector<bool>` is a proxy, and
that of a vector of arrays a pointer. -/
def CppType.hasToBytes : CppType → Bool
  | .scalar (.integral .bool) => false
  | .scalar _ => true
  | _ => false

/-- The types that `visit(T&)` is called for in turn by `visit(T&)`, if what is instantiated compiles. -/
def visitCalls (t : CppType) : Option (List CppType) :=
  if SerializableVector t then
    if SerializableNonScalar t.valueType then serializeCalls t.valueType
    else if t.valueType.hasToBytes then some [] else none
  else if t.isScalarType || t.isScalarArrayType || t.isScalarStdArrayType then some []
  else serializeCalls t

/-- An entry point `serialize` of `templates.h` takes a `T`. -/
def Accepted (t : CppType) : Prop :=
  t.isScalarType = true ∨ t.isScalarArrayType = true ∨ t.isScalarStdArrayType = true ∨ SerializableNonScalar t ∨
    ∃ u, t = .unboundedArray u ∧ SerializableNonScalarArray u

/-- `visit(T&)` compiles, and the calls of `visit` for other types come to an end. -/
inductive Handled : CppType → Prop
  | intro {t : CppType} {us : List CppType} : visitCalls t = some us → (∀ u ∈ us, Handled u) → Handled t

/-! ## The types of the model -/

mutual

def Ty.cpp : Ty → CppType
  | .scalar s => .scalar s
  | .cArray s n => .array (.scalar s) n
  | .stdArray t n => .stdArray t.cpp n
  | .vector t => .vector t.cpp
  | .struct fields => .struct fields.cpp

def Pack.cpp : Pack → CppPack
  | .nil => .nil
  | .cons t ts => .cons t.cpp ts.cpp

end

/-- A vector can have elements of the type, and a `for` loop over it items: there is no vector of arrays, and the item
of a `std::vector<bool>` is a proxy. -/
def Ty.isItem : Ty → Bool
  | .cArray _ _ | .scalar (.integral .bool) => false
  | _ => true

mutual

/-- The type can be written in C++, and `std::vector<bool>` does not occur in it. -/
def Ty.Proper : Ty → Prop
  | .scalar _ => True
  | .cArray _ n => n ≠ 0
  | .stdArray t _ => t.Proper
  | .vector t => t.Proper ∧ t.isItem = true
  | .struct fields => fields.Proper

def Pack.Proper : Pack → Prop
  | .nil => True
  | .cons t ts => t.Proper ∧ ts.Proper

end

theorem Ty.cpp_serializable : ∀ {t : Ty}, t.Proper → Serializable t.cpp
  | .scalar s, _ => .element (.scalar s)
  | .cArray s n, h => by
    have harray : (CppType.array (.scalar s) n).isArrayType = true := CppType.isArrayType_iff.mpr ⟨_, n, rfl, rfl, h⟩
    exact .array (.intro harray (.scalar s))
  | .stdArray t n, h => .element (.stdArray n (Ty.cpp_serializable h))
  | .vector t, h => .vector (serializableVector_iff.mpr ⟨t.cpp, rfl, Ty.cpp_serializable h.1⟩)
  | .struct fields, _ => .element (.struct fields.cpp)

/-! ## One step of the calls -/

theorem not_serializableVector {t : CppType} (h : ∀ u, t ≠ .vector u) : ¬ SerializableVector t := by
  intro hvector
  obtain ⟨u, ht, _⟩ := serializableVector_iff.mp hvector
  exact h u ht

theorem visitCalls_scalar (s : ScalarType) : visitCalls (.scalar s) = some [] := by
  rw [visitCalls, if_neg (not_serializableVector (by simp))]
  rfl

/-- There is no overload for an array of known bound whose elements are not scalars. -/
theorem visitCalls_array (t : CppType) (n : Nat) : visitCalls (.array t n) =
    if (CppType.array t n).isScalarArrayType then some [] else none := by
  rw [visitCalls, if_neg (not_serializableVector (by simp))]
  simp [CppType.isScalarType, CppType.isScalarStdArrayType, CppType.isStdArray, serializeCalls]

theorem visitCalls_unboundedArray (t : CppType) :
    visitCalls (.unboundedArray t) = serializeCalls (.unboundedArray t) := by
  rw [visitCalls, if_neg (not_serializableVector (by simp))]
  simp [CppType.isScalarType, CppType.isScalarStdArrayType, CppType.isStdArray, CppType.isScalarArrayType,
    CppType.isBoundedArray, CppType.extent]

theorem visitCalls_stdArray (t : CppType) (n : Nat) : visitCalls (.stdArray t n) =
    if t.isScalarType then some [] else serializeCalls (.stdArray t n) := by
  rw [visitCalls, if_neg (not_serializableVector (by simp))]
  cases t <;> simp [CppType.isScalarType, CppType.isScalarStdArrayType, CppType.isStdArray, CppType.valueType,
    CppType.isScalarArrayType, CppType.isBoundedArray, CppType.extent]

theorem visitCalls_struct (fields : CppPack) : visitCalls (.struct fields) = some fields.toList := by
  rw [visitCalls, if_neg (not_serializableVector (by simp))]
  rfl

/-- The elements of a vector are passed on, unless they are scalars. -/
theorem visitCalls_vector (t : CppType) : visitCalls (.vector t) =
    if Serializable t then
      if SerializableNonScalar t then serializeCalls t else if t.hasToBytes then some [] else none
    else none := by
  by_cases ht : Serializable t
  · rw [visitCalls, if_pos (serializableVector_iff.mpr ⟨t, rfl, ht⟩), if_pos ht]
    rfl
  · have hvector : ¬ SerializableVector (.vector t) := fun h => by
      obtain ⟨u, hu, hserializable⟩ := serializableVector_iff.mp h
      cases hu
      exact ht hserializable
    rw [visitCalls, if_neg hvector, if_neg ht]
    simp [CppType.isScalarType, CppType.isScalarStdArrayType, CppType.isStdArray, CppType.isScalarArrayType,
      CppType.isBoundedArray, CppType.extent, serializeCalls, hvector]

/-! ## Which types are handled -/

/-- What `serialize` calls `visit` for is handled, when the type is. -/
theorem handled_serializeCalls {t : CppType} (h : Handled t) (ht : SerializableNonScalar t) :
    ∃ us, serializeCalls t = some us ∧ ∀ u ∈ us, Handled u := by
  have helement := ht.1.isElement
  cases t with
  | scalar s => exact absurd ht.2 (by simp [CppType.isScalarType])
  | array u n => cases helement
  | unboundedArray u => cases helement
  | plain => cases helement
  | stdArray u n =>
    have hu : Serializable u := serializable_iff.mpr helement
    refine ⟨[.stdArray u n], by simp [serializeCalls, hu], fun w hw => ?_⟩
    rw [List.mem_singleton.mp hw]
    exact h
  | vector u =>
    have hu : SerializableVector (.vector u) := serializableVector_iff.mpr ⟨u, rfl, serializable_iff.mpr helement⟩
    refine ⟨[.vector u], by simp [serializeCalls, hu], fun w hw => ?_⟩
    rw [List.mem_singleton.mp hw]
    exact h
  | struct fields =>
    obtain ⟨hcalls, hfields⟩ := h
    rw [visitCalls_struct] at hcalls
    exact ⟨_, hcalls, hfields⟩

theorem Ty.hasToBytes_of_isItem {t : Ty} (hp : t.Proper) (hitem : t.isItem = true)
    (h : ¬ SerializableNonScalar t.cpp) : t.cpp.hasToBytes = true := by
  have hserializable := Ty.cpp_serializable hp
  cases t with
  | scalar s =>
    cases s with
    | integral k =>
      cases k with
      | int sign w => rfl
      | bool => cases hitem
    | floating f => rfl
    | string => rfl
  | cArray s n => cases hitem
  | stdArray t n =>
    exact absurd ⟨serializableElement_of_isElement hserializable.isSerializable, rfl⟩ h
  | vector t =>
    exact absurd ⟨serializableElement_of_isElement hserializable.isSerializable, rfl⟩ h
  | struct fields => exact absurd ⟨.struct fields.cpp, rfl⟩ h

mutual

theorem Ty.handled : ∀ {t : Ty}, t.Supported → t.Proper → Handled t.cpp
  | .scalar s, _, _ => .intro (visitCalls_scalar s) (by simp)
  | .cArray s n, _, hn => by
    have harray : (CppType.array (.scalar s) n).isScalarArrayType = true := by
      have hbound : n ≠ 0 := hn
      simp [CppType.isScalarArrayType, CppType.isBoundedArray, CppType.rank, CppType.extent, CppType.removeExtent,
        CppType.isScalarType, hbound]
    have hcalls : visitCalls (Ty.cArray s n).cpp = some [] := by
      rw [Ty.cpp, visitCalls_array, if_pos harray]
    exact .intro hcalls (by simp)
  | .stdArray (.scalar s) n, _, _ => by
    have hcalls : visitCalls (Ty.stdArray (.scalar s) n).cpp = some [] := by
      rw [Ty.cpp, visitCalls_stdArray]
      rfl
    exact .intro hcalls (by simp)
  | .vector t, ht, hp => by
    have hserializable : Serializable t.cpp := Ty.cpp_serializable hp.1
    by_cases hscalar : SerializableNonScalar t.cpp
    · have hhandled : Handled t.cpp := Ty.handled ht hp.1
      obtain ⟨us, hcalls, hus⟩ := handled_serializeCalls hhandled hscalar
      have helements : visitCalls (Ty.vector t).cpp = some us := by
        rw [Ty.cpp, visitCalls_vector, if_pos hserializable, if_pos hscalar, hcalls]
      exact .intro helements hus
    · have hbytes : t.cpp.hasToBytes = true := Ty.hasToBytes_of_isItem hp.1 hp.2 hscalar
      have hcalls : visitCalls (Ty.vector t).cpp = some [] := by
        rw [Ty.cpp, visitCalls_vector, if_pos hserializable, if_neg hscalar, if_pos hbytes]
      exact .intro hcalls (by simp)
  | .struct fields, hs, hp => .intro (visitCalls_struct fields.cpp) (Pack.handled hs hp)

theorem Pack.handled : ∀ {ts : Pack}, ts.Supported → ts.Proper → ∀ u ∈ ts.cpp.toList, Handled u
  | .nil, _, _, u, hu => absurd hu List.not_mem_nil
  | .cons t ts, hs, hp, u, hu => by
    rcases List.mem_cons.mp hu with rfl | hu
    · exact Ty.handled hs.1 hp.1
    · exact Pack.handled hs.2 hp.2 u hu

end

theorem exists_pack : ∀ {fields : CppPack}, (∀ u ∈ fields.toList, ∃ t : Ty, t.Supported ∧ t.Proper ∧ t.cpp = u) →
    ∃ ts : Pack, ts.Supported ∧ ts.Proper ∧ ts.cpp = fields
  | .nil, _ => ⟨.nil, trivial, trivial, rfl⟩
  | .cons u us, h => by
    obtain ⟨t, ht, hp, rfl⟩ := h u List.mem_cons_self
    obtain ⟨ts, hts, hps, rfl⟩ := exists_pack fun w hw => h w (List.mem_cons_of_mem _ hw)
    exact ⟨.cons t ts, ⟨ht, hts⟩, ⟨hp, hps⟩, rfl⟩

/-- The elements that a vector passes on make up a type of the model, when what they pass on does. -/
theorem exists_element {u : CppType} {us : List CppType} (hu : SerializableNonScalar u)
    (hcalls : serializeCalls u = some us) (ih : ∀ w ∈ us, ∃ t : Ty, t.Supported ∧ t.Proper ∧ t.cpp = w) :
    ∃ t : Ty, t.Supported ∧ t.Proper ∧ t.isItem = true ∧ t.cpp = u := by
  have helement := hu.1.isElement
  have hself : us = [u] → (∀ t : Ty, t.cpp = u → t.isItem = true) →
      ∃ t : Ty, t.Supported ∧ t.Proper ∧ t.isItem = true ∧ t.cpp = u := fun hus hitem => by
    obtain ⟨t, ht, hp, hcpp⟩ := ih u (by simp [hus])
    exact ⟨t, ht, hp, hitem t hcpp, hcpp⟩
  cases u with
  | scalar s => exact absurd hu.2 (by simp [CppType.isScalarType])
  | array w n => cases helement
  | unboundedArray w => cases helement
  | plain => cases helement
  | stdArray w n =>
    have hw : Serializable w := serializable_iff.mpr helement
    rw [serializeCalls, if_pos hw] at hcalls
    refine hself (Option.some.inj hcalls).symm fun t ht => ?_
    cases t <;> first | rfl | cases ht
  | vector w =>
    have hw : SerializableVector (.vector w) := serializableVector_iff.mpr ⟨w, rfl, serializable_iff.mpr helement⟩
    rw [serializeCalls, if_pos hw] at hcalls
    refine hself (Option.some.inj hcalls).symm fun t ht => ?_
    cases t <;> first | rfl | cases ht
  | struct fields =>
    obtain rfl : fields.toList = us := Option.some.inj hcalls
    obtain ⟨ts, hts, hp, rfl⟩ := exists_pack ih
    exact ⟨.struct ts, hts, hp, rfl, rfl⟩

theorem CppType.hasToBytes_scalar {u : CppType} (h : u.hasToBytes = true) :
    ∃ s, (Ty.scalar s).isItem = true ∧ u = .scalar s := by
  cases u with
  | scalar s =>
    refine ⟨s, ?_, rfl⟩
    cases s with
    | integral k =>
      cases k with
      | int sign w => rfl
      | bool => cases h
    | floating f => rfl
    | string => rfl
  | _ => cases h

theorem Handled.exists_ty {T : CppType} (h : Handled T) : ∃ t : Ty, t.Supported ∧ t.Proper ∧ t.cpp = T := by
  induction h with
  | @intro T us hcalls _ ih =>
    cases T with
    | scalar s => exact ⟨.scalar s, trivial, trivial, rfl⟩
    | array u n =>
      rw [visitCalls_array] at hcalls
      by_cases hscalar : (CppType.array u n).isScalarArrayType = true
      · simp only [CppType.isScalarArrayType, CppType.isBoundedArray, CppType.extent, CppType.removeExtent,
          Bool.and_eq_true, bne_iff_ne] at hscalar
        cases u with
        | scalar s => exact ⟨.cArray s n, trivial, hscalar.1.2, rfl⟩
        | _ => exact absurd hscalar.2 (by simp [CppType.isScalarType])
      · rw [if_neg hscalar] at hcalls
        cases hcalls
    | unboundedArray u =>
      rw [visitCalls_unboundedArray, serializeCalls] at hcalls
      split at hcalls
      · obtain rfl := Option.some.inj hcalls
        exact ih _ List.mem_cons_self
      · cases hcalls
    | stdArray u n =>
      rw [visitCalls_stdArray] at hcalls
      cases u with
      | scalar s => exact ⟨.stdArray (.scalar s) n, rfl, trivial, rfl⟩
      | _ =>
        -- `visit` calls itself for the same array
        rw [if_neg (by simp [CppType.isScalarType]), serializeCalls] at hcalls
        split at hcalls
        · obtain rfl := Option.some.inj hcalls
          exact ih _ List.mem_cons_self
        · cases hcalls
    | vector u =>
      rw [visitCalls_vector] at hcalls
      split at hcalls
      · split at hcalls
        · rename_i hu
          obtain ⟨t, ht, hp, hitem, rfl⟩ := exists_element hu hcalls ih
          exact ⟨.vector t, ht, ⟨hp, hitem⟩, rfl⟩
        · split at hcalls
          · rename_i hbytes
            obtain ⟨s, hs, rfl⟩ := CppType.hasToBytes_scalar hbytes
            exact ⟨.vector (.scalar s), trivial, ⟨trivial, hs⟩, rfl⟩
          · cases hcalls
      · cases hcalls
    | plain =>
      rw [visitCalls, if_neg (not_serializableVector (by simp))] at hcalls
      cases hcalls
    | struct fields =>
      rw [visitCalls_struct] at hcalls
      obtain rfl := Option.some.inj hcalls
      obtain ⟨ts, hts, hp, rfl⟩ := exists_pack ih
      exact ⟨.struct ts, hts, hp, rfl⟩

theorem Ty.accepted : ∀ {t : Ty}, t.Supported → t.Proper → Accepted t.cpp
  | .scalar _, _, _ => Or.inl rfl
  | .cArray s n, _, hn => by
    have hbound : n ≠ 0 := hn
    refine Or.inr (Or.inl ?_)
    simp [Ty.cpp, CppType.isScalarArrayType, CppType.isBoundedArray, CppType.rank, CppType.extent,
      CppType.removeExtent, CppType.isScalarType, hbound]
  | .stdArray (.scalar _) _, _, _ => Or.inr (Or.inr (Or.inl rfl))
  | .vector t, _, hp => by
    have hvector : SerializableVector (Ty.vector t).cpp := serializableVector_iff.mpr ⟨_, rfl, Ty.cpp_serializable hp.1⟩
    exact Or.inr (Or.inr (Or.inr (Or.inl ⟨.vector hvector, rfl⟩)))
  | .struct fields, _, _ => Or.inr (Or.inr (Or.inr (Or.inl ⟨.struct fields.cpp, rfl⟩)))

/-- **The types that the library handles** are the supported types of the model, apart from those that are not types of
C++ or contain a `std::vector<bool>`, and the entry points take all of them. -/
theorem handled_iff (T : CppType) :
    (Handled T ↔ ∃ t : Ty, t.Supported ∧ t.Proper ∧ t.cpp = T) ∧ (Handled T → Accepted T) := by
  refine ⟨⟨Handled.exists_ty, ?_⟩, ?_⟩
  · intro h
    obtain ⟨t, ht, hp, rfl⟩ := h
    exact Ty.handled ht hp
  · intro h
    obtain ⟨t, ht, hp, rfl⟩ := h.exists_ty
    exact Ty.accepted ht hp

/-! ## The calls of the model -/

section Calls

variable {visit visit' : Visitor}

theorem call_congr : ∀ {ts : Pack}, (∀ t : Ty, t.cpp ∈ ts.cpp.toList → ∀ q, visit t q = visit' t q) →
    ∀ q, call visit ts q = call visit' ts q
  | .nil, _, _ => rfl
  | .cons t ts, h, ((v, vs), s) => by
    have hrest : ∀ q, call visit ts q = call visit' ts q := call_congr fun u hu => h u (List.mem_cons_of_mem _ hu)
    simp only [call, h t List.mem_cons_self, hrest]

theorem callOne_congr {t : Ty} (h : ∀ q, visit t q = visit' t q) (q : t.Val × Serializer) :
    callOne visit t q = callOne visit' t q := by
  rw [callOne_eq, callOne_eq, h]

theorem serializeWith_congr {t : Ty} {us : List CppType} (hcalls : serializeCalls t.cpp = some us)
    (h : ∀ u : Ty, u.cpp ∈ us → ∀ q, visit u q = visit' u q) (q : t.Val × Serializer) :
    serializeWith visit t q = serializeWith visit' t q := by
  have hself : us = [t.cpp] → ∀ q, callOne visit t q = callOne visit' t q := fun hus =>
    callOne_congr (h t (by simp [hus]))
  cases t with
  | scalar s => exact hself (Option.some.inj hcalls).symm q
  | cArray s n => cases hcalls
  | stdArray t n =>
    rw [Ty.cpp, serializeCalls] at hcalls
    split at hcalls
    · exact hself (Option.some.inj hcalls).symm q
    · cases hcalls
  | vector t =>
    rw [Ty.cpp, serializeCalls] at hcalls
    split at hcalls
    · exact hself (Option.some.inj hcalls).symm q
    · cases hcalls
  | struct fields =>
    obtain rfl : fields.cpp.toList = us := Option.some.inj hcalls
    exact call_congr h q

/-- The elements of a vector that are no scalars and no arrays are passed to `serialize`. -/
theorem nonScalar_of_element {t : Ty} (h : Serializable t.cpp) (hscalar : t.isScalar = false)
    (harray : ∀ s n, t ≠ .cArray s n) : SerializableNonScalar t.cpp := by
  cases t with
  | scalar s => cases hscalar
  | cArray s n => exact absurd rfl (harray s n)
  | stdArray t n => exact ⟨serializableElement_of_isElement h.isSerializable, rfl⟩
  | vector t => exact ⟨serializableElement_of_isElement h.isSerializable, rfl⟩
  | struct fields => exact ⟨.struct fields.cpp, rfl⟩

/-- **`visit` of the model calls itself as `visitCalls` says**: what it does depends only on the visits of the types in
the list. -/
theorem visit_calls (host : Endian) {t : Ty} {us : List CppType} (hcalls : visitCalls t.cpp = some us)
    (h : ∀ u : Ty, u.cpp ∈ us → ∀ q, visit u q = visit' u q) (q : t.Val × Serializer) :
    visitSerialize host visit t q = visitSerialize host visit' t q ∧
      visitDeserialize host visit t q = visitDeserialize host visit' t q := by
  cases t with
  | scalar s => exact ⟨rfl, rfl⟩
  | cArray s n => exact ⟨rfl, rfl⟩
  | stdArray t n =>
    rcases t.scalar_or_not with ⟨s, rfl⟩ | ht
    · exact ⟨rfl, rfl⟩
    · have hscalar : t.cpp.isScalarType = false := by
        cases t with
        | scalar s => cases ht
        | _ => rfl
      rw [Ty.cpp, visitCalls_stdArray, if_neg (by simp [hscalar])] at hcalls
      rw [visitSerialize_stdArray host visit ht, visitSerialize_stdArray host visit' ht,
        visitDeserialize_stdArray host visit ht, visitDeserialize_stdArray host visit' ht]
      have harray : serializeCalls (Ty.stdArray t n).cpp = some us := hcalls
      exact ⟨serializeWith_congr harray h q, serializeWith_congr harray h q⟩
  | struct fields =>
    rw [Ty.cpp, visitCalls_struct] at hcalls
    obtain rfl := Option.some.inj hcalls
    exact ⟨call_congr h q, call_congr h q⟩
  | vector t =>
    rw [Ty.cpp, visitCalls_vector] at hcalls
    split at hcalls
    · rename_i hserializable
      have hwith : t.isScalar = false → (∀ s n, t ≠ .cArray s n) →
          ∀ q, serializeWith visit t q = serializeWith visit' t q := fun hscalar harray => by
          rw [if_pos (nonScalar_of_element hserializable hscalar harray)] at hcalls
          exact serializeWith_congr hcalls h
      have hitem : serializeItem host visit t = serializeItem host visit' t := by
        funext item s
        cases t with
        | scalar s => rfl
        | cArray s n => rfl
        | _ => simp only [serializeItem, hwith rfl (by simp)]
      have helement : deserializeElement host visit t = deserializeElement host visit' t := by
        funext s
        cases t with
        | scalar s => rfl
        | cArray s n => rfl
        | _ => simp only [deserializeElement, hwith rfl (by simp)]
      simp only [visitSerialize, visitDeserialize, hitem, helement, and_self]
    · cases hcalls

end Calls

end Borsh
