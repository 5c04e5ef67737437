import Borsh.Base.Reader
import Borsh.Serializer

/-!
# The decoder is a reader

`Ty.read` builds a self-delimiting reader of the values of a type by recursion on the type. In the `Deserialize`
direction, `visit` runs this reader at the cursor, whatever the object it assigns held before (`visit_deserialize`,
`call_deserialize`), for every type, supported or not, on a stack with room for the type's depth.

A property that composes holds of every such reader when it holds of the readers of the leaves (`Ty.read_of_leaves`).
-/

namespace Borsh

/-! ## The readers -/

def readIntegral (host : Endian) (t : IntegralType) : Reader Fault UInt8 t.Val :=
  (Reader.take .outOfRange t.size).bind fun bytes =>
    match ofObjectBytes host t bytes with
    | some value => .pure (if host = .big then byteswap host t value else value)
    | none => .fail .invalidBool

def readFloat (host : Endian) (f : FloatType) : Reader Fault UInt8 f.Val :=
  (Reader.take .outOfRange f.size).bind fun bytes =>
    let value := floatOfObjectBytes host f bytes
    .pure (if host = .big then intToFloat (byteswap host (.int .signed f.width) (floatToInt value)) else value)

/-- A length prefix, as the number of times a loop bounded by it runs. -/
def readCount (host : Endian) : Reader Fault UInt8 Nat :=
  (Reader.take .outOfRange int32.size).bind fun bytes => .pure (loopCount (lengthOfBytes host bytes))

def ScalarType.read (host : Endian) : (s : ScalarType) → Reader Fault UInt8 s.Val
  | .integral t => readIntegral host t
  | .floating f => readFloat host f
  | .string => (readCount host).bind (Reader.times (.item .outOfRange))

mutual

def Ty.read (host : Endian) : (t : Ty) → Reader Fault UInt8 t.Val
  | .scalar s => s.read host
  | .cArray s n => Reader.vector (s.read host) n
  | .stdArray (.scalar s) n => Reader.vector (s.read host) n
  | .stdArray _ _ => .fail .stackOverflow
  | .vector t => (readCount host).bind (Reader.times (t.read host))
  | .struct fields => fields.read host

def Pack.read (host : Endian) : (ts : Pack) → Reader Fault UInt8 ts.Val
  | .nil => .pure ()
  | .cons t ts => (t.read host).bind fun value => (ts.read host).bind fun values => .pure (value, values)

end

/-! ## Properties of the readers -/

/-- A property that composes and that the readers of the leaves have. -/
structure OfLeaves (host : Endian) (P : ∀ α : Type, Reader Fault UInt8 α → Prop) : Prop extends Reader.Composes P where
  integral : ∀ t, P _ (readIntegral host t)
  floating : ∀ f, P _ (readFloat host f)
  count : P _ (readCount host)
  char : P _ (.item .outOfRange)

section OfLeaves

variable {host : Endian} {P : ∀ α : Type, Reader Fault UInt8 α → Prop}

theorem ScalarType.read_of_leaves (h : OfLeaves host P) : ∀ s : ScalarType, P _ (s.read host)
  | .integral t => h.integral t
  | .floating f => h.floating f
  | .string => h.of_bind h.count fun n => h.toComposes.times h.char n

mutual

/-- Such a property holds of the reader of every supported type. -/
theorem Ty.read_of_leaves (h : OfLeaves host P) : ∀ t : Ty, t.Supported → P _ (t.read host)
  | .scalar s, _ => s.read_of_leaves h
  | .cArray s n, _ | .stdArray (.scalar s) n, _ => h.toComposes.vector (s.read_of_leaves h) n
  | .vector t, ht => h.of_bind h.count fun n => h.toComposes.times (t.read_of_leaves h ht) n
  | .struct fields, ht => fields.read_of_leaves h ht

theorem Pack.read_of_leaves (h : OfLeaves host P) : ∀ ts : Pack, ts.Supported → P _ (ts.read host)
  | .nil, _ => h.of_pure ()
  | .cons t ts, hts => h.of_bind (t.read_of_leaves h hts.1) fun _ =>
      h.of_bind (ts.read_of_leaves h hts.2) fun _ => h.of_pure _

end

end OfLeaves

/-! ## Scalars -/

/-- A load followed by a command that reads is a reader that takes the loaded bytes first. -/
theorem load_eq {σ α : Type} {mem : List UInt8} {p n : Nat} {use : List UInt8 → Run σ} {k : α × Nat → σ}
    {r : List UInt8 → Reader Fault UInt8 α} (hn : 0 < n)
    (h : ∀ bytes, use bytes = .ofExcept k ((r bytes).runAt mem (p + n))) :
    load mem p n use = .ofExcept k (((Reader.take .outOfRange n).bind r).runAt mem p) := by
  rw [Reader.runAt_bind, Reader.runAt_take _ hn, load]
  by_cases hp : p + n ≤ mem.length
  · rw [if_pos hp, if_pos hp]
    exact h _
  · rw [if_neg hp, if_neg hp]
    rfl

theorem fromBytesIntegral_eq (host : Endian) (t : IntegralType) (mem : List UInt8) (x : t.Val) (p : Nat) :
    fromBytesIntegral host t mem (x, p) = .ofExcept id ((readIntegral host t).runAt mem p) := by
  unfold fromBytesIntegral readIntegral
  refine load_eq t.size_pos fun bytes => ?_
  cases ofObjectBytes host t bytes <;> simp

theorem fromBytesFloat_eq (host : Endian) (f : FloatType) (mem : List UInt8) (x : f.Val) (p : Nat) :
    fromBytesFloat host f mem (x, p) = .ofExcept id ((readFloat host f).runAt mem p) := by
  unfold fromBytesFloat readFloat
  refine load_eq f.size_pos fun bytes => ?_
  simp

/-- Loading a length and going on with a command that reads as often as it says. -/
theorem load_length_eq {σ α : Type} {host : Endian} {mem : List UInt8} {p : Nat} {use : List UInt8 → Run σ}
    {k : α × Nat → σ} {r : Nat → Reader Fault UInt8 α}
    (h : ∀ bytes, use bytes = .ofExcept k ((r (loopCount (lengthOfBytes host bytes))).runAt mem (p + int32.size))) :
    load mem p int32.size use = .ofExcept k (((readCount host).bind r).runAt mem p) := by
  rw [load_eq int32.size_pos h, readCount, Reader.runAt_bind, Reader.runAt_bind, Reader.runAt_bind]
  cases (Reader.take Fault.outOfRange int32.size).runAt mem p with
  | error f => rfl
  | ok q => simp [Except.bind]

theorem fromBytesString_eq (host : Endian) (mem : List UInt8) (x : List UInt8) (p : Nat) :
    fromBytesString host mem (x, p) = .ofExcept id ((ScalarType.string.read host).runAt mem p) := by
  rw [fromBytesString, ScalarType.read]
  refine load_length_eq fun bytes => ?_
  refine (Reader.times_runAt id (.item .outOfRange) mem (fun acc p => ?_) _ [] (p + int32.size)).trans ?_
  · simp only [id, Reader.runAt_item]
    cases mem[p]? <;> rfl
  · rfl

theorem fromBytes_eq (host : Endian) (mem : List UInt8) : ∀ (s : ScalarType) (x : s.Val) (p : Nat),
    fromBytes host mem s (x, p) = .ofExcept id ((s.read host).runAt mem p)
  | .integral t, x, p => fromBytesIntegral_eq host t mem x p
  | .floating f, x, p => fromBytesFloat_eq host f mem x p
  | .string, x, p => fromBytesString_eq host mem x p

theorem fromBytesArray_eq (host : Endian) (mem : List UInt8) (s : ScalarType) {n : Nat} (xs : List.Vector s.Val n)
    (p : Nat) : fromBytesArray host mem s (xs, p) = .ofExcept id ((Reader.vector (s.read host) n).runAt mem p) :=
  Reader.updateEach_runAt (fromBytes_eq host mem s) xs p

/-! ## `visit` -/

/-- What a visit in the `Deserialize` direction does: it assigns the value read at the cursor and moves the cursor. -/
def assign {α : Type} (s : Serializer) (q : α × Nat) : α × Serializer := (q.1, s.withPointer q.2)

/-- A vector element is read like any value. -/
theorem deserializeElement_eq {host : Endian} {t : Ty}
    (h : ∀ (n : Nat), t.depth ≤ n → ∀ (v : t.Val) (s : Serializer), s.direction = .deserialize →
      visit host n t (v, s) = .ofExcept (assign s) ((t.read host).runAt s.buffer s.bufferPointer))
    {n : Nat} (hn : t.depth ≤ n) {s : Serializer} (hs : s.direction = .deserialize) :
    deserializeElement host (visit host n) t s =
      .ofExcept (assign s) ((t.read host).runAt s.buffer s.bufferPointer) := by
  cases t with
  | scalar st => rw [deserializeElement, fromBytes_eq, Outcome.map_ofExcept]; rfl
  | cArray st m => rw [deserializeElement, fromBytesArray_eq, Outcome.map_ofExcept]; rfl
  | _ => exact serializeWith_of_visit (fun n hn => h n hn _ s hs) hn

mutual

/-- **The decoder is a reader**: what a visit returns and where it leaves the cursor is what the reader of the type
gives at the cursor. -/
theorem visit_deserialize (host : Endian) : ∀ (t : Ty) (n : Nat), t.depth ≤ n → ∀ (v : t.Val) (s : Serializer),
    s.direction = .deserialize →
      visit host n t (v, s) = .ofExcept (assign s) ((t.read host).runAt s.buffer s.bufferPointer)
  | t, 0, hn, _, _, _ => absurd t.depth_pos (by omega)
  | .scalar st, n + 1, _, v, s, hs => by
    simp only [visit, hs, visitDeserialize, fromBytes_eq, Outcome.map_ofExcept, Ty.read]
    rfl
  | .cArray st _, n + 1, _, v, s, hs => by
    simp only [visit, hs, visitDeserialize, fromBytesArray_eq, Outcome.map_ofExcept, Ty.read]
    rfl
  | .stdArray t m, n + 1, _, v, s, hs => by
    cases ht : t.isScalar with
    | false =>
      rw [visit_stdArray_overflow host ht]
      cases t with
      | scalar st => cases ht
      | _ => rfl
    | true =>
      cases t with
      | scalar st =>
        simp only [visit, hs, visitDeserialize, fromBytesArray_eq, Outcome.map_ofExcept, Ty.read]
        rfl
      | _ => cases ht
  | .vector t, n + 1, hn, v, s, hs => by
    have helem : ∀ s : Serializer, s.direction = .deserialize → deserializeElement host (visit host n) t s =
        .ofExcept (assign s) ((t.read host).runAt s.buffer s.bufferPointer) := fun s hs =>
      deserializeElement_eq (visit_deserialize host t) (Ty.depth_vector.mp hn) hs
    simp only [visit, hs, visitDeserialize, Ty.read]
    refine load_length_eq fun bytes => ?_
    -- the loop's state is the vector so far and the serializer, that is, the cursor
    refine (Reader.times_runAt (assign s) (t.read host) s.buffer (fun acc p => ?_) _ []
      (s.bufferPointer + int32.size)).trans ?_
    · simp only [assign]
      rw [helem (s.withPointer p) hs, Outcome.ofExcept_leave]
      rfl
    · simp
  | .struct fields, n + 1, hn, v, s, hs => by
    rw [visit_struct]
    exact call_deserialize host fields n (Ty.depth_struct.mp hn) v s hs

theorem call_deserialize (host : Endian) : ∀ (ts : Pack) (n : Nat), ts.depth ≤ n → ∀ (vs : ts.Val) (s : Serializer),
    s.direction = .deserialize →
      call (visit host n) ts (vs, s) = .ofExcept (assign s) ((ts.read host).runAt s.buffer s.bufferPointer)
  | .nil, _, _, vs, s, _ => by
    simp [call, Pack.read, assign, Serializer.withPointer]
  | .cons t ts, n, hn, (v, vs), s, hs => by
    have hmax := Pack.depth_cons.mp hn
    simp only [call]
    rw [visit_deserialize host t n hmax.1 v s hs, Outcome.map_ofExcept, Pack.read, Reader.runAt_bind]
    refine Outcome.ofExcept_bind (fun q => ?_) _
    simp only [Function.comp_apply, assign]
    rw [call_deserialize host ts n hmax.2 vs (s.withPointer q.2) hs, Outcome.map_ofExcept, Reader.runAt_bind]
    simp only [withPointer_buffer, withPointer_bufferPointer]
    cases (ts.read host).runAt s.buffer q.2 with
    | error f => rfl
    | ok q' => simp [Except.bind, assign]

end

/-- `deserialize` runs the reader of the type at the start of the buffer. -/
theorem deserialize_eq (host : Endian) {t : Ty} {n : Nat} (hn : t.depth ≤ n) (buffer : List UInt8) :
    deserialize host n buffer t = .ofExcept id ((t.read host).runAt buffer 0) := by
  have hw : (serializeWith (visit host n) t (t.initial, ⟨.deserialize, buffer, 0⟩)).map
      (fun q => (q.1, q.2.bufferPointer)) = .ofExcept id ((t.read host).runAt buffer 0) := by
    rw [serializeWith_of_visit (fun n hn => visit_deserialize host t n hn _ _ rfl) hn, Outcome.map_ofExcept]
    rfl
  cases t with
  | scalar st => exact fromBytes_eq host buffer st _ 0
  | cArray st m => exact fromBytesArray_eq host buffer st _ 0
  | _ => exact hw

theorem deserialize_eq_done {host : Endian} {t : Ty} {n : Nat} (hn : t.depth ≤ n) {buffer : List UInt8} {v : t.Val}
    {k : Nat} : deserialize host n buffer t = .done (v, k) ↔
      ∃ used rest, buffer = used ++ rest ∧ (t.read host).Yields used v ∧ k = used.length := by
  rw [deserialize_eq host hn, Outcome.ofExcept_eq_done]
  constructor
  · rintro ⟨q, hq, rfl⟩
    simpa using Reader.runAt_eq_ok.mp hq
  · rintro ⟨used, rest, hu, hy, rfl⟩
    exact ⟨_, Reader.runAt_eq_ok.mpr ⟨used, rest, hu, hy, rfl⟩, by simp⟩

theorem deserialize_eq_fault {host : Endian} {t : Ty} {n : Nat} (hn : t.depth ≤ n) {buffer : List UInt8} {f : Fault} :
    deserialize host n buffer t = .fault f ↔ (t.read host).run buffer = .error f := by
  rw [deserialize_eq host hn, Outcome.ofExcept_eq_fault, Reader.runAt_eq_error, List.drop_zero]

/-- The decoder throws no exception. -/
theorem deserialize_ne_thrown {host : Endian} {t : Ty} {n : Nat} (hn : t.depth ≤ n) (buffer : List UInt8) (e : Exn)
    (q : t.Val × Nat) : deserialize host n buffer t ≠ .thrown e q := by
  rw [deserialize_eq host hn]
  intro h
  cases hr : (t.read host).runAt buffer 0 with
  | ok q => rw [hr] at h; cases h
  | error f => rw [hr] at h; cases h

end Borsh
