import Borsh.Base.Rewrite
import Borsh.Compatibility
import Borsh.Sizes

/-!
# Reading with one type and writing with another

On a little-endian host, decoding a buffer and encoding the value again gives a normal form of the bytes. This normal
form is a matter of the shape of the type alone (`Ty.read_rewrites`), as long as no vector has empty elements: such a
vector keeps the number of its elements, where a type of the same shape keeps the four bytes. So a program that passes
data on may declare another type of the same shape, and what it writes is the same (`normal_forms_agree`).
-/

namespace Borsh

/-! ## The least size of a type and of its shape -/

theorem size_iterate {A : Alphabet UInt8} {f : Shape → Shape} {m : Nat}
    (h : ∀ rest : Shape, (f rest).size A = m + rest.size A) (rest : Shape) :
    ∀ n, (f^[n] rest).size A = n * m + rest.size A
  | 0 => by simp
  | n + 1 => by
    rw [Function.iterate_succ_apply', h, size_iterate h rest n, Nat.succ_mul]
    omega

theorem ScalarType.size_prepend (host : Endian) : ∀ (s : ScalarType) (rest : Shape),
    (s.prepend rest).size (wire host) = s.minSize + rest.size (wire host)
  | .integral (.int _ w), rest => Shape.size_tokens (wire host) rest w.bytes
  | .integral .bool, _ => Nat.add_comm _ _
  | .floating f, rest => Shape.size_tokens (wire host) rest f.size
  | .string, _ => rfl

mutual

/-- The size of a shape is the least size of the type. -/
theorem Ty.size_prepend (host : Endian) : ∀ (t : Ty) (rest : Shape),
    (t.prepend rest).size (wire host) = t.minSize + rest.size (wire host)
  | .scalar s, rest => s.size_prepend host rest
  | .cArray s n, rest => size_iterate (s.size_prepend host) rest n
  | .stdArray t n, rest => size_iterate (t.size_prepend host) rest n
  | .vector t, rest => Shape.size_repeated (wire host) (t.prepend .done) rest
  | .struct fields, rest => fields.size_prepend host rest

theorem Pack.size_prepend (host : Endian) : ∀ (ts : Pack) (rest : Shape),
    (ts.prepend rest).size (wire host) = ts.minSize + rest.size (wire host)
  | .nil, rest => (Nat.zero_add _).symm
  | .cons t ts, rest => by
    rw [Pack.prepend, t.size_prepend host, ts.size_prepend host, Pack.minSize, Nat.add_assoc]

end

/-- A vector of elements that are not empty has a count in its shape. -/
theorem prepend_vector {t : Ty} (ht : 0 < t.minSize) (rest : Shape) :
    (Ty.vector t).prepend rest = .counted t.shape rest := by
  have hsize := t.size_prepend .little .done
  rw [Ty.prepend]
  cases hbody : t.prepend .done with
  | done =>
    rw [hbody] at hsize
    simp only [Shape.size] at hsize
    omega
  | token body => rw [Ty.shape, hbody]; rfl
  | flag body => rw [Ty.shape, hbody]; rfl
  | counted body body' => rw [Ty.shape, hbody]; rfl

/-! ## The reader and the reference encoding of a type -/

/-- Read what fills a shape on a little-endian host, and return it with its lengths written anew. -/
def rewriteShape (s : Shape) : Reader Fault UInt8 (List UInt8) :=
  s.rewrite (wire .little) u32 .outOfRange .invalidBool

theorem readIntegral_rewrites : ∀ (t : IntegralType) (rest : Shape),
    (readIntegral .little t).emit t.reference (rewriteShape rest) =
      rewriteShape ((ScalarType.integral t).prepend rest)
  | .int sign w, rest => by
    unfold rewriteShape
    rw [ScalarType.prepend, Shape.rewrite_tokens, readIntegral, Reader.emit_bind]
    refine Reader.take_congr fun bytes hlen => ?_
    have href : (IntegralType.int sign w).reference (LittleEndian.toBitVec w.bytes bytes) = bytes :=
      @reference_of_load .little (.int sign w) bytes _ hlen rfl
    conv_rhs => rw [id, ← href]
    rfl
  | .bool, rest => by
    refine Reader.ext fun bs => ?_
    cases bs with
    | nil => rfl
    | cons b bs =>
      by_cases h0 : b = 0
      · subst h0
        rfl
      · by_cases h1 : b = 1
        · subst h1
          rfl
        · have hflag : (wire .little).isFlag b = false := by simp [wire, h0, h1]
          simp [rewriteShape, ScalarType.prepend, Shape.rewrite, Shape.readFlag, Reader.emit, readIntegral,
            Reader.bind, Reader.take, Reader.item, IntegralType.size, ofObjectBytes, h0, h1, hflag]

theorem ScalarType.read_rewrites : ∀ (s : ScalarType) (rest : Shape),
    (s.read .little).emit s.reference (rewriteShape rest) = rewriteShape (s.prepend rest)
  | .integral t, rest => readIntegral_rewrites t rest
  | .floating f, rest => by
    unfold rewriteShape
    rw [ScalarType.prepend, Shape.rewrite_tokens, ScalarType.read, readFloat, Reader.emit_bind]
    refine Reader.take_congr fun bytes hlen => ?_
    have href := reference_of_load_float .little f hlen
    conv_rhs => rw [id, ← href]
    rfl
  | .string, rest => by
    have hchars : ScalarType.string.reference = fun cs : List UInt8 => u32 cs.length ++ cs.flatMap fun c => [c] := by
      funext cs
      rw [List.flatMap_singleton']
      rfl
    have hchar : ((Reader.item Fault.outOfRange).emit (fun c => [c]) (.pure [])) = rewriteShape (.token .done) := rfl
    rw [hchars, ScalarType.read, Reader.emit_bind, readCount_skips]
    exact Shape.rewrite_times hchar rest

mutual

/-- **Reading a value and encoding it is a rewriting of the shape of its type.** -/
theorem Ty.read_rewrites : ∀ t : Ty, t.Supported → t.Dense → ∀ rest : Shape,
    (t.read .little).emit t.reference (rewriteShape rest) = rewriteShape (t.prepend rest)
  | .scalar s, _, _, rest => s.read_rewrites rest
  | .cArray s n, _, _, rest => Shape.rewrite_iterate s.read_rewrites n rest
  | .stdArray (.scalar s) n, _, _, rest => Shape.rewrite_iterate s.read_rewrites n rest
  | .vector t, ht, hd, rest => by
    have hbody : (t.read .little).emit t.reference (.pure []) = rewriteShape t.shape := t.read_rewrites ht hd.1 .done
    rw [prepend_vector hd.2, Ty.read, Reader.emit_bind, readCount_skips]
    exact Shape.rewrite_times hbody rest
  | .struct fields, ht, hd, rest => fields.read_rewrites ht hd rest

theorem Pack.read_rewrites : ∀ ts : Pack, ts.Supported → ts.Dense → ∀ rest : Shape,
    (ts.read .little).emit ts.reference (rewriteShape rest) = rewriteShape (ts.prepend rest)
  | .nil, _, _, rest => (Reader.pure_bind _ _).trans (Reader.bind_pure _)
  | .cons t ts, ht, hd, rest => by
    rw [Pack.prepend, ← t.read_rewrites ht.1 hd.1, ← ts.read_rewrites ht.2 hd.2, Pack.read]
    simp only [Reader.emit, Reader.bind_assoc, Reader.pure_bind, Pack.reference, List.append_assoc]

end

/-- What a value is decoded from is rewritten to its reference encoding. -/
theorem Ty.rewrite_yields {t : Ty} (ht : t.Supported) (hd : t.Dense) {used out : List UInt8} :
    (rewriteShape t.shape).Yields used out ↔ ∃ v, (t.read .little).Yields used v ∧ t.reference v = out := by
  have hread : (t.read .little).emit t.reference (.pure []) = rewriteShape t.shape := t.read_rewrites ht hd .done
  rw [← hread]
  simp only [Reader.emit, Reader.pure_bind, List.append_nil]
  rw [Reader.yields_bind_iff]
  constructor
  · rintro ⟨u₁, _, v, rfl, hv, hend⟩
    obtain ⟨rfl, rfl⟩ := Reader.yields_pure_iff.mp hend
    exact ⟨v, by rwa [List.append_nil], rfl⟩
  · rintro ⟨v, hv, rfl⟩
    exact ⟨used, [], v, (List.append_nil used).symm, hv, Reader.yields_pure _⟩

/-! ## Passing data on -/

/-- **The normal form of a buffer does not depend on the type, but on its shape**: what is decoded from a buffer as a
value of one type is decoded as a value of any type of a larger shape, and if both can be encoded, the same bytes are
written. -/
theorem normal_forms_agree {t u : Ty} (ht : t.Supported) (hu : u.Supported) (hdt : t.Dense) (hdu : u.Dense) {n m : Nat}
    (hn : t.depth ≤ n) (hm : u.depth ≤ m) (h : t.shape ≤ u.shape) {buffer : List UInt8} {v : t.Val} {k : Nat}
    (hv : deserialize .little n buffer t = .done (v, k)) :
    ∃ w, deserialize .little m buffer u = .done (w, k) ∧
      (t.NaNFree v → u.NaNFree w → serialize .little m u w = serialize .little n t v) := by
  obtain ⟨used, rest, rfl, hy, rfl⟩ := (deserialize_eq_done hn).mp hv
  have hrewrite : (rewriteShape t.shape).Yields used (t.reference v) := (Ty.rewrite_yields ht hdt).mpr ⟨v, hy, rfl⟩
  have hlarger : (rewriteShape u.shape).Yields used (t.reference v) := fun rest =>
    Shape.Le.rewrite h _ _ (hrewrite rest)
  obtain ⟨w, hw, href⟩ := (Ty.rewrite_yields hu hdu).mp hlarger
  refine ⟨w, (deserialize_eq_done hm).mpr ⟨used, rest, rfl, hw, rfl⟩, fun hvn hwn => ?_⟩
  rw [serialize_reference ht hn hvn, serialize_reference hu hm hwn, href]

/-- A flag and a name behind the prefix `0xFFFFFFFF`, passed on as bytes: the prefix becomes zero all the same. -/
theorem normal_forms_agree_flags :
    ∃ w, deserialize .little 3 [1, 0xFF, 0xFF, 0xFF, 0xFF, 9] byteAndBytes = .done (w, 5) ∧
      serialize .little 3 byteAndBytes w = .done [1, 0, 0, 0, 0] := by
  have hflags : flagAndName.Supported := ⟨trivial, trivial, trivial⟩
  have hbytes : byteAndBytes.Supported := ⟨trivial, trivial, trivial⟩
  have hflags_dense : flagAndName.Dense := ⟨trivial, trivial, trivial⟩
  have hbytes_dense : byteAndBytes.Dense := ⟨trivial, ⟨trivial, Nat.one_pos⟩, trivial⟩
  have hn : flagAndName.depth ≤ 2 := by decide
  have hm : byteAndBytes.depth ≤ 3 := by decide
  have hshape : flagAndName.shape ≤ byteAndBytes.shape := by decide
  have hdecode : deserialize .little 2 [1, 0xFF, 0xFF, 0xFF, 0xFF, 9] flagAndName = .done ((true, [], ()), 5) := rfl
  obtain ⟨w, hw, hagree⟩ := normal_forms_agree hflags hbytes hflags_dense hbytes_dense hn hm hshape hdecode
  have hnan : flagAndName.NaNFree (true, [], ()) := by decide
  have hfloats : byteAndBytes.FloatFree := by decide
  exact ⟨w, hw, (hagree hnan (hfloats.nanFree w)).trans rfl⟩

-- a vector of empty structs has the shape of a `uint32_t`, but keeps a number of elements only
example : (Ty.vector (.struct .nil)).shape = (Ty.scalar (.integral (.int .unsigned .w32))).shape ∧
    deserialize .little 2 [0xFF, 0xFF, 0xFF, 0xFF] (.vector (.struct .nil)) = .done ([], 4) ∧
    serialize .little 2 (.vector (.struct .nil)) [] = .done [0, 0, 0, 0] := ⟨by decide, rfl, rfl⟩

end Borsh
