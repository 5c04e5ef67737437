import Mathlib.Data.List.TakeWhile
import Borsh.Leaves

/-!
# The encoder writes the leaves

In the `Serialize` direction, `visit` on a value is the loop that writes the leaves of the value one after the other
(`visit_serialize`, `call_serialize`), for every type, supported or not, on a stack with room for the type's depth.
The loop appends `Leaf.bytes` for each leaf when none of them stops it (`writeLeaves_done`). It stops at the first NaN
(`writeLeaves_nan`), unless it comes upon a re-entered array before (`writeLeaves_overflow_iff`).
-/

namespace Borsh

/-- What the code does at one leaf. -/
def writeLeaf (host : Endian) : Leaf → List UInt8 → Run (List UInt8)
  | .integral t x, buffer => toBytesIntegral host t x buffer
  | .floating f x, buffer => toBytesFloat host f x buffer
  | .length n, buffer => .done (append host buffer int32 (toInt32 n))
  | .char c, buffer => .done (buffer ++ [charToByte c])
  | .reentry, _ => .fault .stackOverflow

def writeLeaves (host : Endian) (ls : List Leaf) (buffer : List UInt8) : Run (List UInt8) :=
  Outcome.forEach (writeLeaf host) ls buffer

theorem toBytes_eq (host : Endian) : ∀ (st : ScalarType) (x : st.Val) (b : List UInt8),
    toBytes host st x b = writeLeaves host (st.leaves x) b
  | .integral _, _, _ | .floating _, _, _ => by
    simp [writeLeaves, Outcome.forEach, ScalarType.leaves, toBytes, writeLeaf]
  | .string, cs, b => by
    simp only [writeLeaves, ScalarType.leaves, Outcome.forEach, writeLeaf, Outcome.done_bind]
    rw [Outcome.forEach_map_list]
    rfl

theorem toBytesArray_eq (host : Endian) (st : ScalarType) {n : Nat} (xs : List.Vector st.Val n) (b : List UInt8) :
    toBytesArray host st xs b = writeLeaves host (xs.toList.flatMap st.leaves) b := by
  have h : toBytes host st = fun x => Outcome.forEach (writeLeaf host) (st.leaves x) := by
    funext x b
    exact toBytes_eq host st x b
  rw [toBytesArray, h, writeLeaves, Outcome.forEach_flatMap]

/-! ## What is written, and where the loop stops -/

/-- The representation of an integral value as the encoder leaves it in the buffer: on a big-endian host the swapped
one and the native one. -/
def integralBytes (host : Endian) (t : IntegralType) (x : t.Val) : List UInt8 :=
  (if host = .big then objectBytes host t (byteswap host t x) else []) ++ objectBytes host t x

/-- The bytes that one leaf appends to the buffer. -/
def Leaf.bytes (host : Endian) : Leaf → List UInt8
  | .integral t x => integralBytes host t x
  | .floating f x => integralBytes host (.int .signed f.width) (floatToInt x)
  | .length n => objectBytes host int32 (toInt32 n)
  | .char c => [charToByte c]
  | .reentry => []

/-- The bytes that a list of leaves appends to the buffer. -/
def written (host : Endian) (ls : List Leaf) : List UInt8 := ls.flatMap (Leaf.bytes host)

@[simp] theorem written_nil (host : Endian) : written host [] = [] := rfl

@[simp] theorem written_cons (host : Endian) (l : Leaf) (ls : List Leaf) :
    written host (l :: ls) = l.bytes host ++ written host ls := rfl

/-- A leaf that is neither NaN nor re-entered is appended. -/
theorem writeLeaf_passes (host : Endian) : ∀ (l : Leaf) (b : List UInt8), l.isNaN = false → l.isReentry = false →
    writeLeaf host l b = .done (b ++ l.bytes host)
  | .integral t x, b, _, _ => by
    cases host <;> simp [writeLeaf, toBytesIntegral, append, Leaf.bytes, integralBytes]
  | .floating f x, b, h, _ => by
    have hx : Borsh.isNaN x = false := h
    cases host <;> simp [writeLeaf, toBytesFloat, append, Leaf.bytes, integralBytes, hx]
  | .length _, _, _, _ | .char _, _, _, _ => rfl

theorem writeLeaf_nan (host : Endian) : ∀ (l : Leaf) (b : List UInt8), l.isNaN = true →
    writeLeaf host l b = .thrown nanNotAllowed b
  | .floating f x, b, h => by
    have hx : Borsh.isNaN x = true := h
    simp [writeLeaf, toBytesFloat, hx]

theorem writeLeaf_reentry (host : Endian) : ∀ (l : Leaf) (b : List UInt8), l.isReentry = true →
    writeLeaf host l b = .fault .stackOverflow
  | .reentry, _, _ => rfl

/-- No leaf stops the loop: everything is written. -/
theorem writeLeaves_done (host : Endian) : ∀ (ls : List Leaf) (b : List UInt8), (∀ l ∈ ls, l.isNaN = false) →
    (∀ l ∈ ls, l.isReentry = false) → writeLeaves host ls b = .done (b ++ written host ls)
  | [], b, _, _ => by simp [writeLeaves, Outcome.forEach]
  | l :: ls, b, hn, hr => by
    rw [writeLeaves, Outcome.forEach, writeLeaf_passes host l b (hn l List.mem_cons_self) (hr l List.mem_cons_self),
      Outcome.done_bind, written_cons, ← List.append_assoc]
    exact writeLeaves_done host ls _ (fun l hl => hn l (List.mem_cons_of_mem _ hl))
      (fun l hl => hr l (List.mem_cons_of_mem _ hl))

/-- The leaves in front of the first NaN. -/
def beforeNaN (ls : List Leaf) : List Leaf := ls.takeWhile fun l => !l.isNaN

theorem beforeNaN_nan {l : Leaf} (h : l.isNaN = true) (ls : List Leaf) : beforeNaN (l :: ls) = [] := by
  simp [beforeNaN, h]

theorem beforeNaN_cons {l : Leaf} (h : l.isNaN = false) (ls : List Leaf) :
    beforeNaN (l :: ls) = l :: beforeNaN ls := by
  simp [beforeNaN, h]

theorem exists_nan_tail {l : Leaf} {ls : List Leaf} (h : ∃ k ∈ l :: ls, k.isNaN = true) (hl : l.isNaN = false) :
    ∃ k ∈ ls, k.isNaN = true := by
  obtain ⟨k, hk, hn⟩ := h
  rcases List.mem_cons.mp hk with rfl | hk
  · rw [hl] at hn
    cases hn
  · exact ⟨k, hk, hn⟩

/-- Some leaf is NaN: the leaves in front of the first one are written, then the loop throws. -/
theorem writeLeaves_nan (host : Endian) : ∀ (ls : List Leaf) (b : List UInt8), (∃ l ∈ ls, l.isNaN = true) →
    (∀ l ∈ beforeNaN ls, l.isReentry = false) →
      writeLeaves host ls b = .thrown nanNotAllowed (b ++ written host (beforeNaN ls))
  | [], _, h, _ => by obtain ⟨l, hl, _⟩ := h; cases hl
  | l :: ls, b, h, hr => by
    cases hl : l.isNaN with
    | true =>
      rw [writeLeaves, Outcome.forEach, writeLeaf_nan host l b hl, beforeNaN_nan hl]
      simp
    | false =>
      rw [beforeNaN_cons hl] at hr ⊢
      rw [writeLeaves, Outcome.forEach, writeLeaf_passes host l b hl (hr l List.mem_cons_self), Outcome.done_bind,
        written_cons, ← List.append_assoc]
      exact writeLeaves_nan host ls _ (exists_nan_tail h hl) fun l hl => hr l (List.mem_cons_of_mem _ hl)

/-- On a value of a supported type, nothing but a NaN stops the loop. -/
theorem writeLeaves_thrown (host : Endian) {t : Ty} (ht : t.Supported) {v : t.Val}
    (hv : ∃ l ∈ t.leaves v, l.isNaN = true) (b : List UInt8) :
    writeLeaves host (t.leaves v) b = .thrown nanNotAllowed (b ++ written host (beforeNaN (t.leaves v))) :=
  writeLeaves_nan host _ b hv fun l hl => t.leaves_supported ht v l (List.takeWhile_subset _ hl)

theorem beforeNaN_eq_self {ls : List Leaf} (h : ∀ l ∈ ls, l.isNaN = false) : beforeNaN ls = ls := by
  rw [beforeNaN, List.takeWhile_eq_self_iff]
  intro l hl
  rw [h l hl]
  rfl

/-- Whether or not it throws, the loop leaves the leaves in front of the first NaN behind, and nothing else. -/
theorem writeLeaves_state (host : Endian) {ls : List Leaf} (hr : ∀ l ∈ ls, l.isReentry = false) (b : List UInt8) :
    (writeLeaves host ls b).state? = some (b ++ written host (beforeNaN ls)) := by
  by_cases hn : ∀ l ∈ ls, l.isNaN = false
  · rw [writeLeaves_done host ls b hn hr, beforeNaN_eq_self hn, Outcome.state?_done]
  · have hex : ∃ l ∈ ls, l.isNaN = true := by
      by_contra hnone
      exact hn fun l hl => Bool.eq_false_iff.mpr fun h => hnone ⟨l, hl, h⟩
    rw [writeLeaves_nan host ls b hex fun l hl => hr l (List.takeWhile_subset _ hl), Outcome.state?_thrown]

/-- The loop overflows the stack exactly when it comes upon a re-entered array before it throws. -/
theorem writeLeaves_overflow_iff (host : Endian) : ∀ (ls : List Leaf) (b : List UInt8),
    writeLeaves host ls b = .fault .stackOverflow ↔ ∃ l ∈ beforeNaN ls, l.isReentry = true
  | [], b => by simp [writeLeaves, Outcome.forEach, beforeNaN]
  | l :: ls, b => by
    rw [writeLeaves, Outcome.forEach]
    cases hl : l.isNaN with
    | true => simp [writeLeaf_nan host l b hl, beforeNaN_nan hl]
    | false =>
      rw [beforeNaN_cons hl]
      cases hr : l.isReentry with
      | true => simp [writeLeaf_reentry host l b hr, hr]
      | false =>
        rw [writeLeaf_passes host l b hl hr, Outcome.done_bind]
        have ih := writeLeaves_overflow_iff host ls (b ++ l.bytes host)
        rw [writeLeaves] at ih
        simpa [hr] using ih

/-! ## `visit` -/

section Items

variable {host : Endian} {t : Ty}
  (h : ∀ (n : Nat), t.depth ≤ n → ∀ (v : t.Val) (s : Serializer), s.direction = .serialize →
    visit host n t (v, s) = (writeLeaves host (t.leaves v) s.buffer).map fun b => (v, s.withBuffer b))

include h

theorem serializeWith_serialize {n : Nat} (hn : t.depth ≤ n) (v : t.Val) {s : Serializer}
    (hs : s.direction = .serialize) :
    serializeWith (visit host n) t (v, s) = (writeLeaves host (t.leaves v) s.buffer).map fun b => (v, s.withBuffer b) :=
  serializeWith_of_visit (fun n hn => h n hn v s hs) hn

/-- A vector element is written like any value, its copy is dropped. -/
theorem serializeItem_eq {n : Nat} (hn : t.depth ≤ n) (v : t.Val) {s : Serializer} (hs : s.direction = .serialize) :
    serializeItem host (visit host n) t v s = (writeLeaves host (t.leaves v) s.buffer).map s.withBuffer := by
  have hw : (serializeWith (visit host n) t (v, s)).map Prod.snd =
      (writeLeaves host (t.leaves v) s.buffer).map s.withBuffer := by
    rw [serializeWith_serialize h hn v hs, Outcome.map_map]
    rfl
  cases t with
  | scalar st => rw [serializeItem, toBytes_eq]; rfl
  | cArray st m => rw [serializeItem, toBytesArray_eq]; rfl
  | _ => exact hw

/-- The length and the elements of a vector. -/
theorem serializeItems_eq {n : Nat} (hn : t.depth ≤ n) (xs : List t.Val) {s : Serializer}
    (hs : s.direction = .serialize) :
    Outcome.forEach (serializeItem host (visit host n) t) xs
        (s.withBuffer (append host s.buffer int32 (toInt32 xs.length))) =
      (writeLeaves host ((Ty.vector t).leaves xs) s.buffer).map s.withBuffer := by
  have hitem : ∀ x ∈ xs, ∀ b, serializeItem host (visit host n) t x (s.withBuffer b) =
      (Outcome.forEach (writeLeaf host) (t.leaves x) b).map s.withBuffer := fun x _ b =>
    serializeItem_eq h hn x hs
  rw [Outcome.forEach_map xs hitem, ← Outcome.forEach_flatMap]
  rfl

end Items

mutual

/-- **The encoder writes the leaves**, and leaves the object as it is. -/
theorem visit_serialize (host : Endian) : ∀ (t : Ty) (n : Nat), t.depth ≤ n → ∀ (v : t.Val) (s : Serializer),
    s.direction = .serialize →
      visit host n t (v, s) = (writeLeaves host (t.leaves v) s.buffer).map fun b => (v, s.withBuffer b)
  | t, 0, hn, _, _, _ => absurd t.depth_pos (by omega)
  | .scalar st, n + 1, _, v, s, hs => by
    simp only [visit, hs, visitSerialize, toBytes_eq, Ty.leaves]
  | .cArray st _, n + 1, _, v, s, hs => by
    simp only [visit, hs, visitSerialize, toBytesArray_eq, Ty.leaves]
  | .stdArray t m, n + 1, _, v, s, hs => by
    cases ht : t.isScalar with
    | false =>
      rw [visit_stdArray_overflow host ht]
      cases t with
      | scalar st => cases ht
      | _ => rfl
    | true =>
      cases t with
      | scalar st => simp only [visit, hs, visitSerialize, toBytesArray_eq, Ty.leaves]
      | _ => cases ht
  | .vector t, n + 1, hn, v, s, hs => by
    simp only [visit, hs, visitSerialize]
    rw [serializeItems_eq (visit_serialize host t) (Ty.depth_vector.mp hn) v hs, Outcome.map_map]
    rfl
  | .struct fields, n + 1, hn, v, s, hs => by
    rw [visit_struct]
    exact call_serialize host fields n (Ty.depth_struct.mp hn) v s hs

theorem call_serialize (host : Endian) : ∀ (ts : Pack) (n : Nat), ts.depth ≤ n → ∀ (vs : ts.Val) (s : Serializer),
    s.direction = .serialize →
      call (visit host n) ts (vs, s) = (writeLeaves host (ts.leaves vs) s.buffer).map fun b => (vs, s.withBuffer b)
  | .nil, _, _, _, _, _ => rfl
  | .cons t ts, n, hn, (v, vs), s, hs => by
    have hmax := Pack.depth_cons.mp hn
    have hrest : ∀ b, (call (visit host n) ts (vs, s.withBuffer b)).map (fun q => ((v, q.1), q.2)) =
        (writeLeaves host (ts.leaves vs) b).map fun b => ((v, vs), s.withBuffer b) := fun b => by
      rw [call_serialize host ts n hmax.2 vs (s.withBuffer b) hs, Outcome.map_map]
      rfl
    simp only [call]
    rw [visit_serialize host t n hmax.1 v s hs, Outcome.map_map]
    simp only [Pack.leaves, writeLeaves, Outcome.forEach_append]
    exact Outcome.map_bind hrest _

end

/-- The bytes that the encoder appends for a value without NaN. -/
def Ty.encoding (host : Endian) (t : Ty) (v : t.Val) : List UInt8 := written host (t.leaves v)

def Pack.encoding (host : Endian) (ts : Pack) (vs : ts.Val) : List UInt8 := written host (ts.leaves vs)

/-- A value of a supported type without NaN is written to its end. -/
theorem visit_serialize_done (host : Endian) {t : Ty} (ht : t.Supported) {n : Nat} (hn : t.depth ≤ n) {v : t.Val}
    (hv : t.NaNFree v) {s : Serializer} (hs : s.direction = .serialize) :
    visit host n t (v, s) = .done (v, s.withBuffer (s.buffer ++ t.encoding host v)) := by
  rw [visit_serialize host t n hn v s hs, writeLeaves_done host _ _ hv (t.leaves_supported ht v)]
  rfl

/-- Whether or not it throws, the encoder leaves what was in the buffer and the leaves in front of the first NaN. -/
theorem visit_serialize_state (host : Endian) {t : Ty} (ht : t.Supported) {n : Nat} (hn : t.depth ≤ n) (v : t.Val)
    {s : Serializer} (hs : s.direction = .serialize) :
    (visit host n t (v, s)).state? = some (v, s.withBuffer (s.buffer ++ written host (beforeNaN (t.leaves v)))) := by
  rw [visit_serialize host t n hn v s hs, Outcome.state?_map, writeLeaves_state host (t.leaves_supported ht v)]
  rfl

theorem call_serialize_done (host : Endian) {ts : Pack} (hts : ts.Supported) {n : Nat} (hn : ts.depth ≤ n)
    {vs : ts.Val} (hvs : ts.NaNFree vs) {s : Serializer} (hs : s.direction = .serialize) :
    call (visit host n) ts (vs, s) = .done (vs, s.withBuffer (s.buffer ++ ts.encoding host vs)) := by
  rw [call_serialize host ts n hn vs s hs, writeLeaves_done host _ _ hvs (ts.leaves_supported hts vs)]
  rfl

/-- `serialize` writes the leaves to an empty buffer. -/
theorem serialize_eq (host : Endian) {t : Ty} {n : Nat} (hn : t.depth ≤ n) (v : t.Val) :
    serialize host n t v = writeLeaves host (t.leaves v) [] := by
  have hw : (serializeWith (visit host n) t (v, ⟨.serialize, [], 0⟩)).map (fun q => q.2.buffer) =
      writeLeaves host (t.leaves v) [] := by
    rw [serializeWith_of_visit (fun n hn => visit_serialize host t n hn v _ rfl) hn, Outcome.map_map]
    exact Outcome.map_id _
  cases t with
  | scalar st => exact toBytes_eq host st v []
  | cArray st m => exact toBytesArray_eq host st v []
  | _ => exact hw

end Borsh
