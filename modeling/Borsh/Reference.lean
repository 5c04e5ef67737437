import Borsh.Encode

/-!
# The reference encoding

`Ty.reference` is the Borsh encoding of a value, by recursion on the type and without reference to the library's code.
On a little-endian host the encoder writes it behind what the buffer holds (`encoder_conforms`). The proof compares leaf
by leaf: each contributes the same bytes to both (`Leaf.bytes_little`).
-/

namespace Borsh

/-- The number an integral value stands for. -/
def IntegralType.toInt : (t : IntegralType) → t.Val → Int
  | .int .signed _, x => BitVec.toInt x
  | .int .unsigned _, x => BitVec.toNat x
  | .bool, b => if b then 1 else 0

/-- `i` in two's complement, in `w` bytes, lowest first. -/
def twosComplement (w : Nat) (i : Int) : List UInt8 := LittleEndian.digits w (i % (256 ^ w : Nat)).toNat

/-- An unsigned 32-bit number in little-endian order. -/
def u32 (n : Nat) : List UInt8 := LittleEndian.digits 4 n

def IntegralType.reference : (t : IntegralType) → t.Val → List UInt8
  | .int sign w, x => twosComplement w.bytes (toInt (.int sign w) x)
  | .bool, b => [if b then 1 else 0]

def FloatType.reference (f : FloatType) (x : f.Val) : List UInt8 := LittleEndian.digits f.size x.bits.toNat

def ScalarType.reference : (s : ScalarType) → s.Val → List UInt8
  | .integral t, x => t.reference x
  | .floating f, x => f.reference x
  | .string, cs => u32 cs.length ++ cs

mutual

/-- **The reference encoding.** -/
def Ty.reference : (t : Ty) → t.Val → List UInt8
  | .scalar s, x => s.reference x
  | .cArray s _, xs => xs.toList.flatMap s.reference
  | .stdArray t _, xs => xs.toList.flatMap t.reference
  | .vector t, xs => u32 xs.length ++ xs.flatMap t.reference
  | .struct fields, xs => fields.reference xs

def Pack.reference : (ts : Pack) → ts.Val → List UInt8
  | .nil, _ => []
  | .cons t ts, (x, xs) => t.reference x ++ ts.reference xs

end

/-! ## Leaves -/

/-- The two's complement of the number is the little-endian object representation. -/
theorem reference_integral : ∀ (t : IntegralType) (x : t.Val), t.reference x = objectBytes .little t x
  | .bool, _ => rfl
  | .int sign w, x => by
    have hpow : (256 ^ w.bytes : Nat) = 2 ^ (8 * w.bytes) := (LittleEndian.two_pow_eight_mul _).symm
    have hx : (IntegralType.toInt (.int sign w) x % (256 ^ w.bytes : Nat)).toNat = BitVec.toNat x := by
      rw [hpow]
      cases sign with
      | signed =>
        have h : (BitVec.ofInt (8 * w.bytes) (BitVec.toInt x)).toNat =
            (BitVec.toInt x % (2 ^ (8 * w.bytes) : Nat)).toNat := BitVec.toNat_ofInt _
        rw [BitVec.ofInt_toInt] at h
        exact h.symm
      | unsigned =>
        have hlt : BitVec.toNat x < 2 ^ (8 * w.bytes) := x.isLt
        simp only [IntegralType.toInt]
        rw [← Int.natCast_mod, Int.toNat_natCast, Nat.mod_eq_of_lt hlt]
    rw [IntegralType.reference, twosComplement, hx]
    rfl

theorem reference_floating (f : FloatType) (x : f.Val) :
    f.reference x = objectBytes .little (.int .signed f.width) (floatToInt x) := rfl

/-- The prefix of a little-endian host: the cast to `int32_t` keeps the unsigned 32-bit digits. -/
theorem u32_eq (n : Nat) : u32 n = objectBytes .little int32 (toInt32 n) := by
  have h : (toInt32 n).toNat = n % 256 ^ 4 := BitVec.toNat_ofNat n 32
  simp only [objectBytes, Endian.order, LittleEndian.ofBitVec]
  rw [u32, ← LittleEndian.digits_mod 4 n, ← h]
  rfl

@[simp] theorem length_u32 (n : Nat) : (u32 n).length = 4 := LittleEndian.length_digits 4 n

@[simp] theorem charToByte_eq (c : UInt8) : charToByte c = c := by simp [charToByte]

/-- What a leaf contributes to the reference encoding. -/
def Leaf.reference : Leaf → List UInt8
  | .integral t x => t.reference x
  | .floating f x => f.reference x
  | .length n => u32 n
  | .char c => [c]
  | .reentry => []

theorem Leaf.bytes_little : ∀ l : Leaf, l.bytes .little = l.reference
  | .integral t x => (reference_integral t x).symm
  | .floating f x => (reference_floating f x).symm
  | .length n => (u32_eq n).symm
  | .char c => by simp [bytes, reference]
  | .reentry => rfl

theorem flatMap_flatMap_reference {α : Type} {leaves : α → List Leaf} {reference : α → List UInt8} {xs : List α}
    (h : ∀ x ∈ xs, (leaves x).flatMap Leaf.reference = reference x) :
    (xs.flatMap leaves).flatMap Leaf.reference = xs.flatMap reference := by
  rw [List.flatMap_assoc]
  exact List.flatMap_congr h

theorem ScalarType.leaves_reference : ∀ (s : ScalarType) (x : s.Val),
    (s.leaves x).flatMap Leaf.reference = s.reference x
  | .integral _, _ | .floating _, _ => List.append_nil _
  | .string, cs => by
    have h : cs.flatMap (fun c => [c]) = cs := List.flatMap_singleton' cs
    simp only [leaves, reference, List.flatMap_cons, List.flatMap_map, Leaf.reference]
    rw [h]

mutual

/-- The reference encoding is what the leaves contribute, in order. -/
theorem Ty.leaves_reference : ∀ (t : Ty) (v : t.Val), (∀ l ∈ t.leaves v, l.isReentry = false) →
    (t.leaves v).flatMap Leaf.reference = t.reference v
  | .scalar s, x, _ => s.leaves_reference x
  | .cArray s _, _, _ | .stdArray (.scalar s) _, _, _ => flatMap_flatMap_reference fun x _ => s.leaves_reference x
  | .stdArray (.cArray _ _) _, _, hr | .stdArray (.stdArray _ _) _, _, hr | .stdArray (.vector _) _, _, hr
  | .stdArray (.struct _) _, _, hr => absurd (hr .reentry List.mem_cons_self) (by decide)
  | .vector t, xs, hr => by
    have hitem : ∀ x ∈ xs, (t.leaves x).flatMap Leaf.reference = t.reference x := fun x hx =>
      t.leaves_reference x fun l hl => hr l (List.mem_cons_of_mem _ (List.mem_flatMap.mpr ⟨x, hx, hl⟩))
    rw [Ty.leaves, List.flatMap_cons, flatMap_flatMap_reference hitem]
    rfl
  | .struct fields, xs, hr => fields.leaves_reference xs hr

theorem Pack.leaves_reference : ∀ (ts : Pack) (vs : ts.Val), (∀ l ∈ ts.leaves vs, l.isReentry = false) →
    (ts.leaves vs).flatMap Leaf.reference = ts.reference vs
  | .nil, _, _ => rfl
  | .cons t ts, (x, xs), hr => by
    rw [Pack.leaves, List.flatMap_append, t.leaves_reference x fun l hl => hr l (List.mem_append_left _ hl),
      ts.leaves_reference xs fun l hl => hr l (List.mem_append_right _ hl)]
    rfl

end

theorem written_little (ls : List Leaf) : written .little ls = ls.flatMap Leaf.reference :=
  List.flatMap_congr fun l _ => l.bytes_little

theorem encoding_little {t : Ty} (ht : t.Supported) (v : t.Val) : t.encoding .little v = t.reference v := by
  rw [Ty.encoding, written_little, t.leaves_reference v (t.leaves_supported ht v)]

theorem Pack.encoding_little {ts : Pack} (hts : ts.Supported) (vs : ts.Val) :
    ts.encoding .little vs = ts.reference vs := by
  rw [Pack.encoding, written_little, ts.leaves_reference vs (ts.leaves_supported hts vs)]

theorem serialize_reference {t : Ty} (ht : t.Supported) {n : Nat} (hn : t.depth ≤ n) {v : t.Val} (hv : t.NaNFree v) :
    serialize .little n t v = .done (t.reference v) := by
  rw [serialize_eq .little hn v, writeLeaves_done .little _ _ hv (t.leaves_supported ht v), ← encoding_little ht v]
  rfl

/-- **The encoder conforms to the reference** on a little-endian host, from any buffer. -/
theorem encoder_conforms (t : Ty) (ht : t.Supported) (v : t.Val) (hv : t.NaNFree v) {n : Nat} (hn : t.depth ≤ n) :
    (∀ (b : List UInt8) (p : Nat),
      visit .little n t (v, ⟨.serialize, b, p⟩) = .done (v, ⟨.serialize, b ++ t.reference v, p⟩)) ∧
    serialize .little n t v = .done (t.reference v) := by
  refine ⟨fun b p => ?_, serialize_reference ht hn hv⟩
  rw [visit_serialize_done .little ht hn hv rfl, encoding_little ht v]
  rfl

/-- A struct of a negative integer, a vector of strings and a `double`, behind a byte that is there already. -/
theorem encoder_conforms_struct :
    visit .little 3 (.struct (.cons (.scalar (.integral (.int .signed .w16))) (.cons (.vector (.scalar .string))
        (.cons (.scalar (.floating .double)) .nil))))
      ((0xFFFE, [[104, 105], []], ⟨0x3FF0000000000000⟩, ()), ⟨.serialize, [7], 0⟩) =
    .done ((0xFFFE, [[104, 105], []], ⟨0x3FF0000000000000⟩, ()),
      ⟨.serialize, [7, 0xFE, 0xFF, 2, 0, 0, 0, 2, 0, 0, 0, 104, 105, 0, 0, 0, 0, 0, 0, 0, 0, 0, 0, 0xF0, 0x3F], 0⟩) :=
  (encoder_conforms (.struct (.cons (.scalar (.integral (.int .signed .w16))) (.cons (.vector (.scalar .string))
    (.cons (.scalar (.floating .double)) .nil)))) ⟨trivial, trivial, trivial, trivial⟩
    (0xFFFE, [[104, 105], []], ⟨0x3FF0000000000000⟩, ()) (by decide) (by decide)).1 [7] 0

end Borsh
