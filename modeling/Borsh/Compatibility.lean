import Borsh.Base.Shape
import Borsh.Decode

/-!
# Which types read the same bytes

`Ty.shape` is what is left of a type when the meaning of its values is forgotten: numbers are bytes, a `bool` is a byte
that is `0` or `1`, strings are vectors of bytes, and arrays and structs are their elements and fields in a row. The
shapes decide what can be exchanged when a type is changed. A type reads every buffer that holds a value of another
one if and only if its shape is above the other's, that is, if the two differ in nothing but a `bool` that became a byte
(`readable_iff`). The types whose decodings end alike on every buffer are those of one shape (`ends_alike_iff`).

The code does not refuse another byte than `0` and `1` for a `bool`. To load it is undefined, and such a buffer holds no
value of the type.
-/

namespace Borsh

/-! ## The shape of a type -/

/-- The bytes of a format: a `bool` is a flag, and the four bytes of a length count the passes of a loop. -/
def wire (host : Endian) : Alphabet UInt8 where
  isFlag b := b == 0 || b == 1
  width := int32.size
  count bytes := loopCount (lengthOfBytes host bytes)
  zero := 0
  one := 1
  other := 2
  unit := objectBytes host int32 1
  width_pos := int32.size_pos
  isFlag_zero := rfl
  isFlag_one := rfl
  isFlag_other := rfl
  count_zeros := by cases host <;> decide
  count_one_pos := by cases host <;> decide
  length_unit := length_objectBytes host int32 1
  count_unit := by cases host <;> decide

/-- The shape of a scalar, and then `rest`. -/
def ScalarType.prepend : ScalarType → Shape → Shape
  | .integral (.int _ w), rest => .tokens w.bytes rest
  | .integral .bool, rest => .flag rest
  | .floating f, rest => .tokens f.size rest
  | .string, rest => .counted (.token .done) rest

mutual

/-- The shape of a `t`, and then `rest`. -/
def Ty.prepend : Ty → Shape → Shape
  | .scalar s, rest => s.prepend rest
  | .cArray s n, rest => s.prepend^[n] rest
  | .stdArray t n, rest => t.prepend^[n] rest
  | .vector t, rest => .repeated int32.size (t.prepend .done) rest
  | .struct fields, rest => fields.prepend rest

def Pack.prepend : Pack → Shape → Shape
  | .nil, rest => rest
  | .cons t ts, rest => t.prepend (ts.prepend rest)

end

/-- The shape of a type. It does not depend on the host. -/
def Ty.shape (t : Ty) : Shape := t.prepend .done

example : (Ty.vector (.scalar (.integral (.int .unsigned .w8)))).shape = (Ty.scalar .string).shape := by decide

theorem normal_iterate {f : Shape → Shape} (h : ∀ rest : Shape, rest.Normal → (f rest).Normal) {rest : Shape}
    (hrest : rest.Normal) : ∀ n, (f^[n] rest).Normal
  | 0 => hrest
  | n + 1 => by
    rw [Function.iterate_succ_apply']
    exact h _ (normal_iterate h hrest n)

theorem ScalarType.prepend_normal : ∀ (s : ScalarType) {rest : Shape}, rest.Normal → (s.prepend rest).Normal
  | .integral (.int _ w), _, h => Shape.normal_tokens h w.bytes
  | .integral .bool, _, h => h
  | .floating f, _, h => Shape.normal_tokens h f.size
  | .string, _, h => ⟨nofun, trivial, h⟩

mutual

theorem Ty.prepend_normal : ∀ (t : Ty) {rest : Shape}, rest.Normal → (t.prepend rest).Normal
  | .scalar s, _, h => s.prepend_normal h
  | .cArray s n, _, h => normal_iterate (fun _ => s.prepend_normal) h n
  | .stdArray t n, _, h => normal_iterate (fun _ => t.prepend_normal) h n
  | .vector t, _, h => Shape.normal_repeated (t.prepend_normal (show Shape.Normal .done from trivial)) h int32.size
  | .struct fields, _, h => fields.prepend_normal h

theorem Pack.prepend_normal : ∀ (ts : Pack) {rest : Shape}, rest.Normal → (ts.prepend rest).Normal
  | .nil, _, h => h
  | .cons t ts, _, h => t.prepend_normal (ts.prepend_normal h)

end

/-! ## The reader of a type, without its values -/

/-- Go over the bytes of a shape. -/
def skipShape (host : Endian) (s : Shape) : Reader Fault UInt8 Unit := s.skip (wire host) .outOfRange .invalidBool

theorem readIntegral_skips (host : Endian) : ∀ (t : IntegralType) (rest : Shape),
    ((readIntegral host t).bind fun _ => skipShape host rest) = skipShape host ((ScalarType.integral t).prepend rest)
  | .int sign w, rest => by
    unfold skipShape
    rw [ScalarType.prepend, Shape.skip_tokens, readIntegral, Reader.bind_assoc]
    rfl
  | .bool, rest => by
    refine Reader.ext fun bs => ?_
    cases bs with
    | nil => rfl
    | cons b bs =>
      by_cases h0 : b = 0
      · subst h0
        rfl
      · by_cases h1 : b = 1
        · subst h1
          rfl
        · have hflag : (wire host).isFlag b = false := by simp [wire, h0, h1]
          simp [skipShape, ScalarType.prepend, Shape.skip, readIntegral, Reader.bind, Reader.take, Reader.item,
            IntegralType.size, ofObjectBytes, h0, h1, hflag]

theorem readCount_skips (host : Endian) {α : Type} (k : Nat → Reader Fault UInt8 α) :
    (readCount host).bind k = (Reader.take .outOfRange (wire host).width).bind fun p => k ((wire host).count p) := by
  rw [readCount, Reader.bind_assoc]
  rfl

theorem ScalarType.read_skips (host : Endian) : ∀ (s : ScalarType) (rest : Shape),
    ((s.read host).bind fun _ => skipShape host rest) = skipShape host (s.prepend rest)
  | .integral t, rest => readIntegral_skips host t rest
  | .floating f, rest => by
    unfold skipShape
    rw [ScalarType.prepend, Shape.skip_tokens, ScalarType.read, readFloat, Reader.bind_assoc]
    rfl
  | .string, rest => by
    rw [ScalarType.read, Reader.bind_assoc, readCount_skips]
    have hchar : ((Reader.item Fault.outOfRange).bind fun _ => .pure ()) = skipShape host (.token .done) := rfl
    exact Shape.skip_times hchar rest

mutual

/-- **Reading a value goes over the bytes of the shape of its type.** -/
theorem Ty.read_skips (host : Endian) : ∀ t : Ty, t.Supported → ∀ rest : Shape,
    ((t.read host).bind fun _ => skipShape host rest) = skipShape host (t.prepend rest)
  | .scalar s, _, rest => s.read_skips host rest
  | .cArray s n, _, rest => Shape.skip_iterate (s.read_skips host) n rest
  | .stdArray (.scalar s) n, _, rest =>
    Shape.skip_iterate (s.read_skips host) n rest
  | .vector t, ht, rest => by
    have hbody : ((t.read host).bind fun _ => .pure ()) = skipShape host (t.prepend .done) :=
      Ty.read_skips host t ht .done
    rw [Ty.read, Reader.bind_assoc, readCount_skips]
    exact Shape.skip_times hbody rest
  | .struct fields, ht, rest => Pack.read_skips host fields ht rest

theorem Pack.read_skips (host : Endian) : ∀ ts : Pack, ts.Supported → ∀ rest : Shape,
    ((ts.read host).bind fun _ => skipShape host rest) = skipShape host (ts.prepend rest)
  | .nil, _, rest => rfl
  | .cons t ts, hts, rest => by
    rw [Pack.prepend, ← Ty.read_skips host t hts.1, ← Pack.read_skips host ts hts.2, Pack.read]
    simp only [Reader.bind_assoc, Reader.pure_bind]

end

/-- What is decoded as a value of the type is what fills its shape. -/
theorem Ty.yields_iff_fills (host : Endian) {t : Ty} (ht : t.Supported) (used : List UInt8) :
    (∃ v, (t.read host).Yields used v) ↔ t.shape.Fills (wire host) used := by
  rw [← Shape.yields_skip_iff (wire host) Fault.outOfRange Fault.invalidBool]
  have hread : ((t.read host).bind fun _ => .pure ()) =
      t.shape.skip (wire host) Fault.outOfRange Fault.invalidBool := t.read_skips host ht .done
  rw [← hread, Reader.yields_bind_iff]
  constructor
  · rintro ⟨v, hv⟩
    exact ⟨used, [], v, (List.append_nil used).symm, hv, Reader.yields_pure ()⟩
  · rintro ⟨u₁, _, v, rfl, hv, hend⟩
    obtain ⟨rfl, _⟩ := Reader.yields_pure_iff.mp hend
    exact ⟨v, by rwa [List.append_nil]⟩

theorem decoded_whole_iff {host : Endian} {t : Ty} (ht : t.Supported) {n : Nat} (hn : t.depth ≤ n)
    {buffer : List UInt8} :
    (∃ v, deserialize host n buffer t = .done (v, buffer.length)) ↔ t.shape.Fills (wire host) buffer := by
  rw [← t.yields_iff_fills host ht]
  constructor
  · rintro ⟨v, h⟩
    obtain ⟨used, rest, rfl, hy, hlen⟩ := (deserialize_eq_done hn).mp h
    have hrest : rest = [] := by
      apply List.eq_nil_of_length_eq_zero
      rw [List.length_append] at hlen
      omega
    rw [hrest, List.append_nil]
    exact ⟨v, hy⟩
  · rintro ⟨v, hy⟩
    exact ⟨v, (deserialize_eq_done hn).mpr ⟨buffer, [], (List.append_nil buffer).symm, hy, rfl⟩⟩

/-- Where a decoding ends is where going over the shape ends. -/
theorem deserialize_end (host : Endian) {t : Ty} (ht : t.Supported) {n : Nat} (hn : t.depth ≤ n)
    (buffer : List UInt8) :
    (deserialize host n buffer t).map Prod.snd = .ofExcept Prod.snd ((skipShape host t.shape).runAt buffer 0) := by
  rw [deserialize_eq host hn, Outcome.map_ofExcept, Ty.shape, ← t.read_skips host ht, Reader.runAt_bind]
  have hdone : ∀ q, (skipShape host .done).runAt buffer q = .ok ((), q) := Reader.runAt_pure () buffer
  cases (t.read host).runAt buffer 0 with
  | error f => rfl
  | ok q => simp [Except.bind, hdone]

/-! ## Types that are exchanged -/

theorem Ty.shape_le_iff (host : Endian) (t u : Ty) :
    t.shape ≤ u.shape ↔ ∀ us, t.shape.Fills (wire host) us → u.shape.Fills (wire host) us := by
  have hdone : Shape.done.Normal := trivial
  exact Shape.le_iff_fills (wire host) (t.prepend_normal hdone) (u.prepend_normal hdone)

/-- **Which types read what another type reads**: one type reads every buffer that holds a value of another one and
nothing else, if and only if it has the shape of the other, but for bytes in the place of `bool`s. Then it also takes as
many bytes from every buffer. A byte that is no `bool` makes a difference because loading it as one is undefined, not
because it is refused. -/
theorem readable_iff (host : Endian) {t u : Ty} (ht : t.Supported) (hu : u.Supported) {n m : Nat} (hn : t.depth ≤ n)
    (hm : u.depth ≤ m) :
    ((∀ buffer, (∃ v, deserialize host n buffer t = .done (v, buffer.length)) →
        ∃ w, deserialize host m buffer u = .done (w, buffer.length)) ↔ t.shape ≤ u.shape) ∧
      (t.shape ≤ u.shape → ∀ buffer v k, deserialize host n buffer t = .done (v, k) →
        ∃ w, deserialize host m buffer u = .done (w, k)) := by
  rw [Ty.shape_le_iff host]
  constructor
  · simp only [decoded_whole_iff ht hn, decoded_whole_iff hu hm]
  · intro h buffer v k hv
    obtain ⟨used, rest, rfl, hy, rfl⟩ := (deserialize_eq_done hn).mp hv
    have hfills : u.shape.Fills (wire host) used := h used ((t.yields_iff_fills host ht used).mp ⟨v, hy⟩)
    obtain ⟨w, hw⟩ := (u.yields_iff_fills host hu used).mpr hfills
    exact ⟨w, (deserialize_eq_done hm).mpr ⟨used, rest, rfl, hw, rfl⟩⟩

/-- A struct of a `bool` and a string. -/
abbrev flagAndName : Ty := .struct (.cons (.scalar (.integral .bool)) (.cons (.scalar .string) .nil))

/-- A struct of an `int8_t` and a vector of `uint8_t`. -/
abbrev byteAndBytes : Ty := .struct (.cons (.scalar (.integral (.int .signed .w8)))
  (.cons (.vector (.scalar (.integral (.int .unsigned .w8)))) .nil))

/-- Bytes can be read where a flag and a name were written, but not the other way round. -/
theorem readable_iff_flags :
    (∀ buffer, (∃ v, deserialize .big 2 buffer flagAndName = .done (v, buffer.length)) →
      ∃ w, deserialize .big 3 buffer byteAndBytes = .done (w, buffer.length)) ∧
    ¬ ∀ buffer, (∃ v, deserialize .big 3 buffer byteAndBytes = .done (v, buffer.length)) →
      ∃ w, deserialize .big 2 buffer flagAndName = .done (w, buffer.length) := by
  have hflags : flagAndName.Supported := ⟨trivial, trivial, trivial⟩
  have hbytes : byteAndBytes.Supported := ⟨trivial, trivial, trivial⟩
  have hn : flagAndName.depth ≤ 2 := by decide
  have hm : byteAndBytes.depth ≤ 3 := by decide
  constructor
  · exact (readable_iff .big hflags hbytes hn hm).1.mpr (by decide)
  · intro h
    exact absurd ((readable_iff .big hbytes hflags hm hn).1.mp h) (by decide)

/-- **Types that cannot be told apart by their decoders are those of one shape**: from every buffer, they take as many
bytes or come upon the same first, a byte for a `bool` that is none (undefined, and not refused by the code) or the end
of the buffer. -/
theorem ends_alike_iff (host : Endian) {t u : Ty} (ht : t.Supported) (hu : u.Supported) {n m : Nat} (hn : t.depth ≤ n)
    (hm : u.depth ≤ m) :
    (∀ buffer, (deserialize host n buffer t).map Prod.snd = (deserialize host m buffer u).map Prod.snd) ↔
      t.shape = u.shape := by
  have hends : ∀ {t : Ty} {n : Nat} {buffer : List UInt8}, t.Supported → t.depth ≤ n →
      (t.shape.Fills (wire host) buffer ↔ (deserialize host n buffer t).map Prod.snd = .done buffer.length) := by
    intro t n buffer ht hn
    rw [← decoded_whole_iff ht hn, Outcome.map_eq_done]
    constructor
    · rintro ⟨v, h⟩
      exact ⟨_, h, rfl⟩
    · rintro ⟨⟨v, k⟩, h, rfl⟩
      exact ⟨v, h⟩
  constructor
  · intro h
    apply le_antisymm
    · apply (Ty.shape_le_iff host t u).mpr
      intro us hus
      rw [hends hu hm, ← h us]
      exact (hends ht hn).mp hus
    · apply (Ty.shape_le_iff host u t).mpr
      intro us hus
      rw [hends ht hn, h us]
      exact (hends hu hm).mp hus
  · intro h buffer
    rw [deserialize_end host ht hn, deserialize_end host hu hm, h]

/-- A struct of two `double`s ends where an array of two `uint64_t`s does. A vector of `float`s and one of `uint16_t`s
do not end at the same places. -/
theorem ends_alike_iff_doubles :
    (∀ buffer, (deserialize .little 2 buffer (.struct (.cons (.scalar (.floating .double))
      (.cons (.scalar (.floating .double)) .nil)))).map Prod.snd =
        (deserialize .little 2 buffer (.stdArray (.scalar (.integral (.int .unsigned .w64))) 2)).map Prod.snd) ∧
    ¬ ∀ buffer, (deserialize .little 2 buffer (.vector (.scalar (.floating .float)))).map Prod.snd =
      (deserialize .little 2 buffer (.vector (.scalar (.integral (.int .unsigned .w16))))).map Prod.snd := by
  have hstruct : (Ty.struct (.cons (.scalar (.floating .double))
    (.cons (.scalar (.floating .double)) .nil))).Supported := ⟨trivial, trivial, trivial⟩
  have harray : (Ty.stdArray (.scalar (.integral (.int .unsigned .w64))) 2).Supported := rfl
  have hfloats : (Ty.vector (.scalar (.floating .float))).Supported := trivial
  have hshorts : (Ty.vector (.scalar (.integral (.int .unsigned .w16)))).Supported := trivial
  constructor
  · exact (ends_alike_iff .little hstruct harray (by decide) (by decide)).mpr (by decide)
  · intro h
    exact absurd ((ends_alike_iff .little hfloats hshorts (by decide) (by decide)).mp h) (by decide)

end Borsh
