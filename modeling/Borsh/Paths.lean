import Borsh.Encode

/-!
# The encoding paths

The encoder is written three times: in `visit(T&)`, in `visit(const T&)` and in the free `serialize(const T&)`. The two
`visit`s write the elements of a vector by `to_bytes` or by the full dispatch. Each path is the loop that writes the
leaves of the value (`visitConst_serialize`, `serializeConst_eq`, `writeVector_eq`), so they end alike
(`encoding_paths_agree`).
-/

namespace Borsh

/-! ## Objects that are `const` -/

mutual

/-- **The `const` copy of `visit` writes the leaves**, like the other. -/
theorem visitConst_serialize (host : Endian) : ∀ (t : Ty), t.Supported → ∀ (n : Nat), t.depth ≤ n →
    ∀ (v : t.Val) (s : Serializer), s.direction = .serialize →
      visitConst host n t v s = (writeLeaves host (t.leaves v) s.buffer).map s.withBuffer
  | t, _, 0, hn, _, _, _ => absurd t.depth_pos (by omega)
  | .scalar st, _, n + 1, _, v, s, hs => by
    simp only [visitConst, hs, visitConstSerialize, toBytes_eq, Ty.leaves]
  | .cArray st _, _, n + 1, _, v, s, hs => by
    simp only [visitConst, hs, visitConstSerialize, toBytesArray_eq, Ty.leaves]
  | .stdArray (.scalar st) _, _, n + 1, _, v, s, hs => by
    simp only [visitConst, hs, visitConstSerialize, toBytesArray_eq, Ty.leaves]
  | .vector t, _, n + 1, hn, v, s, hs => by
    -- the items are no longer `const`
    simp only [visitConst, hs, visitConstSerialize]
    exact serializeItems_eq (visit_serialize host t) (Ty.depth_vector.mp hn) v hs
  | .struct fields, ht, n + 1, hn, v, s, hs => by
    simp only [visitConst, hs, visitConstSerialize, serializeWithConst]
    exact callConst_serialize host fields ht n (Ty.depth_struct.mp hn) v s hs

theorem callConst_serialize (host : Endian) : ∀ (ts : Pack), ts.Supported → ∀ (n : Nat), ts.depth ≤ n →
    ∀ (vs : ts.Val) (s : Serializer), s.direction = .serialize →
      callConst (visitConst host n) ts vs s = (writeLeaves host (ts.leaves vs) s.buffer).map s.withBuffer
  | .nil, _, _, _, _, _, _ => rfl
  | .cons t ts, hts, n, hn, (v, vs), s, hs => by
    have hmax := Pack.depth_cons.mp hn
    have hrest : ∀ b, callConst (visitConst host n) ts vs (s.withBuffer b) =
        (writeLeaves host (ts.leaves vs) b).map s.withBuffer := fun b =>
      callConst_serialize host ts hts.2 n hmax.2 vs (s.withBuffer b) hs
    simp only [callConst]
    rw [visitConst_serialize host t hts.1 n hmax.1 v s hs]
    simp only [Pack.leaves, writeLeaves, Outcome.forEach_append]
    exact Outcome.map_bind hrest _

end

/-- An object that is no struct is passed on as it is. -/
theorem callConst_single (visitConst : ConstVisitor) (t : Ty) (v : t.Val) (s : Serializer) :
    callConst visitConst (.cons t .nil) (v, ()) s = visitConst t v s := by
  unfold callConst
  exact Outcome.bind_done _

theorem serializeWithConst_serialize (host : Endian) {t : Ty} (ht : t.Supported) {n : Nat} (hn : t.depth ≤ n)
    (v : t.Val) {s : Serializer} (hs : s.direction = .serialize) :
    serializeWithConst (visitConst host n) t v s = (writeLeaves host (t.leaves v) s.buffer).map s.withBuffer := by
  have hvisit := visitConst_serialize host t ht n hn v s hs
  cases t with
  | struct fields =>
    have hdepth : fields.depth ≤ n := Ty.depth_struct.mp (Nat.le_succ_of_le hn)
    exact callConst_serialize host fields ht n hdepth v s hs
  | scalar st => exact (callConst_single _ _ v s).trans hvisit
  | cArray st m => exact (callConst_single _ _ v s).trans hvisit
  | stdArray t m => exact (callConst_single _ _ v s).trans hvisit
  | vector t => exact (callConst_single _ _ v s).trans hvisit

theorem serializeConst_eq (host : Endian) {t : Ty} (ht : t.Supported) {n : Nat} (hn : t.depth ≤ n) (v : t.Val) :
    serializeConst host n t v = writeLeaves host (t.leaves v) [] := by
  have hw : (serializeWithConst (visitConst host n) t v ⟨.serialize, [], 0⟩).map Serializer.buffer =
      writeLeaves host (t.leaves v) [] := by
    rw [serializeWithConst_serialize host ht hn v rfl, Outcome.map_map]
    exact Outcome.map_id _
  cases t with
  | scalar st => exact toBytes_eq host st v []
  | cArray st m => exact toBytesArray_eq host st v []
  | stdArray t m =>
    cases t with
    | scalar st => exact toBytesArray_eq host st v []
    | _ => cases ht
  | vector t => exact hw
  | struct fields => exact hw

/-! ## Vectors, element by element -/

/-- The length, then each element by `element`. -/
def writeVector (host : Endian) {α : Type} (element : α → List UInt8 → Run (List UInt8)) (xs : List α)
    (buffer : List UInt8) : Run (List UInt8) :=
  Outcome.forEach element xs (append host buffer int32 (toInt32 xs.length))

/-- `serialize(item, Serializer&)`, as a function of the buffer. -/
def dispatchItem (host : Endian) (n : Nat) (p : Nat) (t : Ty) (item : t.Val) (buffer : List UInt8) :
    Run (List UInt8) :=
  (serializeWith (visit host n) t (item, ⟨.serialize, buffer, p⟩)).map fun q => q.2.buffer

theorem writeVector_eq {host : Endian} {t : Ty} {element : t.Val → List UInt8 → Run (List UInt8)}
    (h : ∀ x b, element x b = writeLeaves host (t.leaves x) b) (xs : List t.Val) (b : List UInt8) :
    writeVector host element xs b = writeLeaves host ((Ty.vector t).leaves xs) b := by
  have helement : element = fun x => Outcome.forEach (writeLeaf host) (t.leaves x) := by
    funext x b
    exact h x b
  rw [writeVector, helement, ← Outcome.forEach_flatMap]
  rfl

theorem dispatchItem_eq (host : Endian) {n : Nat} (p : Nat) {t : Ty} (hn : t.depth ≤ n) (x : t.Val) (b : List UInt8) :
    dispatchItem host n p t x b = writeLeaves host (t.leaves x) b := by
  unfold dispatchItem
  rw [serializeWith_serialize (visit_serialize host t) hn x rfl, Outcome.map_map]
  exact Outcome.map_id _

/-! ## Agreement -/

/-- Writing the leaves of a value of a supported type ends normally or with the exception for NaN. -/
theorem writeLeaves_ends (host : Endian) {t : Ty} (ht : t.Supported) (v : t.Val) (b : List UInt8) :
    (∃ b', writeLeaves host (t.leaves v) b = .done b') ∨
      ∃ b', writeLeaves host (t.leaves v) b = .thrown nanNotAllowed b' := by
  by_cases hv : t.NaNFree v
  · exact Or.inl ⟨_, writeLeaves_done host _ b hv (t.leaves_supported ht v)⟩
  · exact Or.inr ⟨_, writeLeaves_thrown host ht (not_nanFree.mp hv) b⟩

/-- **All encoding paths agree**: the two `visit`s, the free functions, and for vectors the loops over their elements,
by the full dispatch and by `to_bytes`. The object is left as it is. -/
theorem encoding_paths_agree (host : Endian) (n : Nat) :
    (∀ (t : Ty), t.Supported → t.depth ≤ n → ∀ (v : t.Val) (b : List UInt8) (p : Nat),
      ∃ o : Run (List UInt8),
        ((∃ b', o = .done b') ∨ ∃ b', o = .thrown (.invalidArgument "NaN is not allowed") b') ∧
        visit host n t (v, ⟨.serialize, b, p⟩) = o.map (fun b' => (v, ⟨.serialize, b', p⟩)) ∧
        visitConst host n t v ⟨.serialize, b, p⟩ = o.map (fun b' => ⟨.serialize, b', p⟩) ∧
        (b = [] → serialize host n t v = o ∧ serializeConst host n t v = o)) ∧
    (∀ (t : Ty), t.depth ≤ n → ∀ (xs : List t.Val) (b : List UInt8) (p : Nat),
      visit host (n + 1) (.vector t) (xs, ⟨.serialize, b, p⟩) =
        (writeVector host (dispatchItem host n p t) xs b).map fun b' => (xs, ⟨.serialize, b', p⟩)) ∧
    ∀ (st : ScalarType) (xs : List st.Val) (b : List UInt8) (p : Nat),
      visit host (n + 1) (.vector (.scalar st)) (xs, ⟨.serialize, b, p⟩) =
        (writeVector host (toBytes host st) xs b).map fun b' => (xs, ⟨.serialize, b', p⟩) := by
  refine ⟨fun t ht hn v b p => ?_, fun t hn xs b p => ?_, fun st xs b p => ?_⟩
  · refine ⟨writeLeaves host (t.leaves v) b, writeLeaves_ends host ht v b, visit_serialize host t n hn v _ rfl,
      visitConst_serialize host t ht n hn v _ rfl, ?_⟩
    rintro rfl
    exact ⟨serialize_eq host hn v, serializeConst_eq host ht hn v⟩
  · rw [visit_serialize host (.vector t) (n + 1) (Ty.depth_vector.mpr hn) xs _ rfl,
      writeVector_eq (dispatchItem_eq host p hn)]
    rfl
  · have hitem : ∀ x ∈ xs, ∀ b', serializeItem host (visit host n) (.scalar st) x ⟨.serialize, b', p⟩ =
        (toBytes host st x b').map fun b' => ⟨.serialize, b', p⟩ := fun _ _ _ => rfl
    simp only [visit, visitSerialize]
    refine (congrArg _ (Outcome.forEach_map xs hitem _)).trans ?_
    rw [Outcome.map_map]
    rfl

/-- The second of two floats in a `const` vector is NaN. -/
theorem encoding_paths_agree_nan :
    visitConst .little 2 (.vector (.scalar (.floating .float))) [⟨0x3F800000⟩, ⟨0x7FC00000⟩] ⟨.serialize, [7], 0⟩ =
      .thrown nanNotAllowed ⟨.serialize, [7, 2, 0, 0, 0, 0, 0, 0x80, 0x3F], 0⟩ := by
  have hvisit : visit .little 2 (.vector (.scalar (.floating .float)))
      ([⟨0x3F800000⟩, ⟨0x7FC00000⟩], ⟨.serialize, [7], 0⟩) =
    .thrown nanNotAllowed ([⟨0x3F800000⟩, ⟨0x7FC00000⟩], ⟨.serialize, [7, 2, 0, 0, 0, 0, 0, 0x80, 0x3F], 0⟩) := rfl
  obtain ⟨o, _, hmutable, hconst, _⟩ := (encoding_paths_agree .little 2).1 (.vector (.scalar (.floating .float)))
    trivial (by decide) [⟨0x3F800000⟩, ⟨0x7FC00000⟩] [7] 0
  rw [hvisit] at hmutable
  cases o with
  | thrown e b => cases hmutable; exact hconst
  | done b => cases hmutable
  | fault f => cases hmutable

end Borsh
