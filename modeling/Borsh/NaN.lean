import Borsh.Cut

/-!
# The NaN rule

A run that serializes a value of a supported type throws exactly when the value has a NaN (`throws_iff_nan`). It then
leaves the bytes in front of the first NaN in the buffer. They are the front of what any value is written as that
differs from this one in its NaNs only (`beforeNaN_agrees`).

The decoder has no such rule. It returns a NaN for every float among the pieces of the buffer that has the bits of one,
and the encoder refuses the value then (`reencodes_iff`).
-/

namespace Borsh

/-- `l'` may differ from `l` only when `l` is NaN, and is of the same type then. -/
def Leaf.AgreesOffNaN (l l' : Leaf) : Prop :=
  l' = l ∨ ∃ f x x', l = .floating f x ∧ Borsh.isNaN x = true ∧ l' = .floating f x'

/-- `v'` agrees with `v` except at the NaNs of `v`. -/
def Ty.AgreesOffNaN (t : Ty) (v v' : t.Val) : Prop := List.Forall₂ Leaf.AgreesOffNaN (t.leaves v) (t.leaves v')

theorem Leaf.eq_floating : ∀ {l : Leaf}, l.isNaN = true → ∃ f x, l = .floating f x ∧ Borsh.isNaN x = true
  | .floating f x, h => ⟨f, x, rfl, h⟩

/-- Two lists of leaves that agree up to NaNs agree up to the first one, where both have a float. -/
theorem beforeNaN_agrees {ls ls' : List Leaf} (h : List.Forall₂ Leaf.AgreesOffNaN ls ls')
    (hn : ∃ l ∈ ls, l.isNaN = true) : ∃ f x rest, ls' = beforeNaN ls ++ .floating f x :: rest := by
  induction h with
  | nil =>
    obtain ⟨l, hl, _⟩ := hn
    cases hl
  | @cons l l' ls ls' hll' _ ih =>
    cases hl : l.isNaN with
    | true =>
      obtain ⟨f, x, rfl, _⟩ := Leaf.eq_floating hl
      rw [beforeNaN_nan hl]
      rcases hll' with rfl | ⟨f', x', x'', _, _, rfl⟩
      · exact ⟨f, x, ls', rfl⟩
      · exact ⟨f', x'', ls', rfl⟩
    | false =>
      obtain ⟨f, x, rest, rfl⟩ := ih (exists_nan_tail hn hl)
      rw [beforeNaN_cons hl]
      rcases hll' with rfl | ⟨f', x', x'', rfl, hx', _⟩
      · exact ⟨f, x, rest, rfl⟩
      · change Borsh.isNaN x' = false at hl
        rw [hx'] at hl
        cases hl

theorem written_append (host : Endian) (ls ls' : List Leaf) :
    written host (ls ++ ls') = written host ls ++ written host ls' := List.flatMap_append

theorem floating_bytes_ne_nil (host : Endian) (f : FloatType) (x : f.Val) : (Leaf.floating f x).bytes host ≠ [] := by
  intro h
  have hlen := congrArg List.length h
  simp only [Leaf.bytes, integralBytes, List.length_append, length_objectBytes, List.length_nil] at hlen
  have hpos := f.width.bytes_pos
  simp only [IntegralType.size] at hlen
  omega

/-- The encoding of a value that agrees with `v` up to NaNs goes on behind what is written of `v`. -/
theorem encoding_of_agrees (host : Endian) {t : Ty} {v v' : t.Val} (h : t.AgreesOffNaN v v')
    (hn : ∃ l ∈ t.leaves v, l.isNaN = true) :
    ∃ tail, tail ≠ [] ∧ t.encoding host v' = written host (beforeNaN (t.leaves v)) ++ tail := by
  obtain ⟨f, x, rest, hv'⟩ := beforeNaN_agrees h hn
  refine ⟨(Leaf.floating f x).bytes host ++ written host rest, ?_, ?_⟩
  · intro htail
    exact floating_bytes_ne_nil host f x (List.append_eq_nil_iff.mp htail).1
  · rw [Ty.encoding, hv', written_append, written_cons]

/-- A value with a NaN, and without re-entered arrays, is not written to its end. -/
theorem visit_serialize_thrown (host : Endian) {t : Ty} (ht : t.Supported) {n : Nat} (hn : t.depth ≤ n) {v : t.Val}
    (hv : ∃ l ∈ t.leaves v, l.isNaN = true) {s : Serializer} (hs : s.direction = .serialize) :
    visit host n t (v, s) =
      .thrown nanNotAllowed (v, s.withBuffer (s.buffer ++ written host (beforeNaN (t.leaves v)))) := by
  rw [visit_serialize host t n hn v s hs, writeLeaves_thrown host ht hv]
  rfl

/-- **Serialization fails exactly on NaN**, and then leaves the bytes in front of the first NaN behind what the buffer
held: a proper prefix of the encoding of every value without NaN that agrees with this one elsewhere. -/
theorem throws_iff_nan (host : Endian) (t : Ty) (ht : t.Supported) (v : t.Val) {n : Nat} (hn : t.depth ≤ n)
    (b : List UInt8) (p : Nat) :
    ((∃ q, visit host n t (v, ⟨.serialize, b, p⟩) = .done q) ↔ t.NaNFree v) ∧
    ((∃ e q, visit host n t (v, ⟨.serialize, b, p⟩) = .thrown e q) ↔ ∃ l ∈ t.leaves v, l.isNaN = true) ∧
    ∀ e q, visit host n t (v, ⟨.serialize, b, p⟩) = .thrown e q →
      e = .invalidArgument "NaN is not allowed" ∧
      q = (v, ⟨.serialize, b ++ written host (beforeNaN (t.leaves v)), p⟩) ∧
      ∀ v', t.NaNFree v' → t.AgreesOffNaN v v' → ∃ tail, tail ≠ [] ∧
        visit host n t (v', ⟨.serialize, b, p⟩) =
          .done (v', ⟨.serialize, b ++ (written host (beforeNaN (t.leaves v)) ++ tail), p⟩) := by
  by_cases hv : t.NaNFree v
  · rw [visit_serialize_done host ht hn hv rfl]
    refine ⟨⟨fun _ => hv, fun _ => ⟨_, rfl⟩⟩, ⟨fun h => ?_, fun h => absurd hv (not_nanFree.mpr h)⟩, fun e q h => ?_⟩
    · obtain ⟨e, q, h⟩ := h
      cases h
    · cases h
  · have hnan := not_nanFree.mp hv
    rw [visit_serialize_thrown host ht hn hnan rfl]
    refine ⟨⟨fun h => ?_, fun h => absurd h hv⟩, ⟨fun _ => hnan, fun _ => ⟨_, _, rfl⟩⟩, fun e q h => ?_⟩
    · obtain ⟨q, h⟩ := h
      cases h
    · cases h
      refine ⟨rfl, rfl, fun v' hv' hagree => ?_⟩
      obtain ⟨tail, htail, hencoding⟩ := encoding_of_agrees host hagree hnan
      refine ⟨tail, htail, ?_⟩
      rw [visit_serialize_done host ht hn hv' rfl, hencoding]
      rfl

/-- The second of two doubles is NaN. -/
theorem throws_iff_nan_second : ∃ e q, visit .little 1 (.cArray (.floating .double) 2)
    (⟨[⟨0x3FF0000000000000⟩, ⟨0x7FF8000000000000⟩], rfl⟩, ⟨.serialize, [7], 0⟩) = .thrown e q :=
  (throws_iff_nan .little (.cArray (.floating .double) 2) trivial
    ⟨[⟨0x3FF0000000000000⟩, ⟨0x7FF8000000000000⟩], rfl⟩ (by decide) [7] 0).2.1.mpr
    ⟨.floating .double ⟨0x7FF8000000000000⟩, List.mem_cons_of_mem _ List.mem_cons_self, by decide⟩

-- infinities, the negative zero and a subnormal
example : isNaN (⟨0x7FF0000000000000⟩ : FloatType.Val .double) = false := by decide
example : isNaN (⟨0xFF800000⟩ : FloatType.Val .float) = false := by decide
example : isNaN (⟨0x80000000⟩ : FloatType.Val .float) = false := by decide
example : isNaN (⟨1⟩ : FloatType.Val .double) = false := by decide

/-! ## The decoder -/

/-- The pieces that have the bits of a NaN. -/
def Piece.isNaN : Piece → Bool
  | .floating f bytes => Borsh.isNaN (floatOfObjectBytes .little f bytes)
  | _ => false

theorem floatOfObjectBytes_reference (f : FloatType) (x : f.Val) :
    floatOfObjectBytes .little f (f.reference x) = x := by
  apply FloatType.Val.ext
  exact LittleEndian.toBitVec_ofBitVec x.bits

/-- A float is a NaN on either host when its piece is one. -/
theorem Piece.Reads.isNaN {host : Endian} {p : Piece} {l : Leaf} (h : p.Reads host l) : p.isNaN = l.isNaN := by
  cases h with
  | floating h =>
    subst h
    simp only [Piece.isNaN, floatOfObjectBytes_reference]
    rfl
  | _ => rfl

theorem Layout.nanFree_iff {host : Endian} {t : Ty} {v : t.Val} {used : List UInt8} {ps : List Piece}
    (h : Layout host used (t.leaves v) ps) : (∀ p ∈ ps, p.isNaN = false) ↔ t.NaNFree v :=
  h.forall_iff fun p l hp => by rw [hp.isNaN]

theorem serialize_ne_thrown_iff (host : Endian) {t : Ty} (ht : t.Supported) {n : Nat} (hn : t.depth ≤ n) (v : t.Val) :
    (∀ e b, serialize host n t v ≠ .thrown e b) ↔ t.NaNFree v := by
  rw [serialize_eq host hn v]
  by_cases hv : t.NaNFree v
  · rw [writeLeaves_done host _ _ hv (t.leaves_supported ht v)]
    exact ⟨fun _ => hv, fun _ e b h => by cases h⟩
  · rw [writeLeaves_thrown host ht (not_nanFree.mp hv)]
    exact ⟨fun h => absurd rfl (h _ _), fun h => absurd h hv⟩

/-- Decoding `bs` reports an error, or it returns a value without NaN, which is serialized again without a throw. -/
def KeepsNaNRule (host : Endian) (n : Nat) (bs : List UInt8) (t : Ty) : Prop :=
  (∃ e q, deserialize host n bs t = .thrown e q) ∨
    ∃ v k, deserialize host n bs t = .done (v, k) ∧ t.NaNFree v ∧ ∀ e b, serialize host n t v ≠ .thrown e b

/-- A decoding that keeps the rule has no NaN among the pieces that it took. -/
theorem KeepsNaNRule.pieces {host : Endian} {t : Ty} (ht : t.Supported) {n : Nat} (hn : t.depth ≤ n)
    {bs rest : List UInt8} {ps : List Piece} (hcut : t.cut host bs = (ps, some rest)) (h : KeepsNaNRule host n bs t) :
    ∀ p ∈ ps, p.isNaN = false := by
  rcases h with ⟨e, q, hthrown⟩ | ⟨v, k, hdone, hv, _⟩
  · exact absurd hthrown (deserialize_ne_thrown hn bs e q)
  · obtain ⟨_, hlayout⟩ := layout_of_cut ht hn hcut hdone
    exact hlayout.nanFree_iff.mpr hv

/-- **The decoder keeps the NaN rule exactly when no float among the pieces of the buffer is a NaN**, on a buffer that
is long enough and whose bytes for `bool`s are `0` or `1`. Where there is another byte for a `bool`, such a float still
breaks the rule. -/
theorem reencodes_iff (host : Endian) (t : Ty) (ht : t.Supported) {n : Nat} (hn : t.depth ≤ n) {bs rest : List UInt8}
    {ps : List Piece} (hcut : t.cut host bs = (ps, some rest)) :
    ((∀ p ∈ ps, p.isValid = true) → (KeepsNaNRule host n bs t ↔ ∀ p ∈ ps, p.isNaN = false)) ∧
      (KeepsNaNRule host n bs t → ∀ p ∈ ps, p.isNaN = false) := by
  have hpieces : KeepsNaNRule host n bs t → ∀ p ∈ ps, p.isNaN = false := fun h => h.pieces ht hn hcut
  refine ⟨fun hvalid => ⟨hpieces, fun hps => ?_⟩, hpieces⟩
  obtain ⟨v, used, _, hdone, hlayout⟩ := deserialize_of_cut ht hn hcut hvalid
  have hv : t.NaNFree v := hlayout.nanFree_iff.mp hps
  exact Or.inr ⟨v, _, hdone, hv, (serialize_ne_thrown_iff host ht hn v).mpr hv⟩

/-- A struct of a `bool` and a vector of `float`s. -/
abbrev flagAndFloats : Ty := .struct (.cons (.scalar (.integral .bool))
  (.cons (.vector (.scalar (.floating .float))) .nil))

/-- An infinity behind a `bool` keeps the rule, and a NaN does not, whatever the `bool` is. -/
theorem reencodes_iff_infinity :
    KeepsNaNRule .little 3 [1, 1, 0, 0, 0, 0, 0, 0x80, 0x7F] flagAndFloats ∧
    ¬ KeepsNaNRule .little 3 [1, 1, 0, 0, 0, 0, 0, 0xC0, 0x7F] flagAndFloats ∧
    ¬ KeepsNaNRule .little 3 [2, 1, 0, 0, 0, 0, 0, 0xC0, 0x7F] flagAndFloats := by
  have hsupported : flagAndFloats.Supported := ⟨trivial, trivial, trivial⟩
  have hdepth : flagAndFloats.depth ≤ 3 := by decide
  constructor
  · have hcut : flagAndFloats.cut .little [1, 1, 0, 0, 0, 0, 0, 0x80, 0x7F] =
      ([.integral .bool [1], .length [1, 0, 0, 0], .floating .float [0, 0, 0x80, 0x7F]], some []) := rfl
    exact ((reencodes_iff .little flagAndFloats hsupported hdepth hcut).1 (by decide)).mpr (by decide)
  constructor
  · intro h
    have hcut : flagAndFloats.cut .little [1, 1, 0, 0, 0, 0, 0, 0xC0, 0x7F] =
      ([.integral .bool [1], .length [1, 0, 0, 0], .floating .float [0, 0, 0xC0, 0x7F]], some []) := rfl
    exact absurd ((reencodes_iff .little flagAndFloats hsupported hdepth hcut).2 h) (by decide)
  · intro h
    have hcut : flagAndFloats.cut .little [2, 1, 0, 0, 0, 0, 0, 0xC0, 0x7F] =
      ([.integral .bool [2], .length [1, 0, 0, 0], .floating .float [0, 0, 0xC0, 0x7F]], some []) := rfl
    exact absurd ((reencodes_iff .little flagAndFloats hsupported hdepth hcut).2 h) (by decide)

/-- Eight bytes that are decoded to a NaN, which is not serialized again. -/
theorem decoded_nan_refused :
    deserialize .little 1 [0, 0, 0, 0, 0, 0, 0xF8, 0x7F] (.scalar (.floating .double)) =
      .done (⟨0x7FF8000000000000⟩, 8) ∧
    ¬ (Ty.scalar (.floating .double)).NaNFree ⟨0x7FF8000000000000⟩ ∧
    serialize .little 1 (.scalar (.floating .double)) ⟨0x7FF8000000000000⟩ = .thrown nanNotAllowed [] :=
  ⟨rfl, by decide, rfl⟩

end Borsh
