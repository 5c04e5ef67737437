import Borsh.Base.PrefixCode
import Borsh.Encode

/-!
# The format is unambiguous

What `serialize` writes for the values of one type is a prefix code, on both hosts (`Ty.encoding_prefixCode`), as long
as no length wraps around in its 32 bits. So the bytes of a value tell the value and where they end, also on a
big-endian host, whose output the library does not read back; and a stream of them tells every one of them
(`output_unambiguous`).
-/

namespace Borsh

/-- No string or vector in the value is so long that its length wraps around in 32 bits. -/
def Ty.Unwrapped (t : Ty) (v : t.Val) : Prop := ∀ k ∈ t.counts v, k < 2 ^ 32

instance (t : Ty) (v : t.Val) : Decidable (t.Unwrapped v) := inferInstanceAs (Decidable (∀ k ∈ _, _))

/-! ## Leaves -/

theorem objectBytes_inj {host : Endian} {t : IntegralType} {x y : t.Val}
    (h : objectBytes host t x = objectBytes host t y) : x = y := by
  have hread := congrArg (ofObjectBytes host t) h
  rw [ofObjectBytes_objectBytes, ofObjectBytes_objectBytes] at hread
  exact Option.some.inj hread

theorem length_integralBytes (host : Endian) (t : IntegralType) (x : t.Val) :
    (integralBytes host t x).length = if host = .big then 2 * t.size else t.size := by
  cases host with
  | little => simp [integralBytes]
  | big =>
    simp [integralBytes]
    omega

/-- On a big-endian host the second half of the bytes tells the value as well. -/
theorem integral_prefixCode (host : Endian) (t : IntegralType) :
    PrefixCode (fun _ => True) (integralBytes host t) := by
  refine PrefixCode.of_length (fun x _ => length_integralBytes host t x) fun x y _ _ h => ?_
  have hlen : (objectBytes host t x).length = (objectBytes host t y).length := by
    rw [length_objectBytes, length_objectBytes]
  exact objectBytes_inj (List.append_inj' h hlen).2

theorem floating_prefixCode (host : Endian) (f : FloatType) :
    PrefixCode (fun _ => True) fun x : f.Val => integralBytes host (.int .signed f.width) (floatToInt x) := by
  refine (integral_prefixCode host (.int .signed f.width)).comap (f := floatToInt) ?_
  intro x y h
  exact FloatType.Val.ext h

theorem length_prefixCode (host : Endian) :
    PrefixCode (· < 2 ^ 32) fun n => objectBytes host int32 (toInt32 n) := by
  refine PrefixCode.of_length (fun n _ => length_objectBytes host int32 (toInt32 n)) fun n m hn hm h => ?_
  have hbits := congrArg BitVec.toNat (objectBytes_inj h)
  have hn' : (toInt32 n).toNat = n % 2 ^ 32 := BitVec.toNat_ofNat n 32
  have hm' : (toInt32 m).toNat = m % 2 ^ 32 := BitVec.toNat_ofNat m 32
  rw [hn', hm', Nat.mod_eq_of_lt hn, Nat.mod_eq_of_lt hm] at hbits
  exact hbits

theorem char_prefixCode : PrefixCode (fun _ => True) fun c : UInt8 => [charToByte c] := by
  refine PrefixCode.of_length (n := 1) (fun _ _ => rfl) fun c d _ _ h => ?_
  simpa [charToByte] using h

/-! ## Types -/

theorem ScalarType.encoding_prefixCode (host : Endian) : ∀ s : ScalarType,
    PrefixCode (fun x => ∀ k, .length k ∈ s.leaves x → k < 2 ^ 32) fun x => written host (s.leaves x)
  | .integral t => (integral_prefixCode host t).mono (fun _ _ => trivial) fun _ => List.append_nil _
  | .floating f => (floating_prefixCode host f).mono (fun _ _ => trivial) fun _ => List.append_nil _
  | .string => by
    refine ((length_prefixCode host).counted char_prefixCode).mono (fun cs h => ?_) fun cs => ?_
    · exact ⟨h cs.length List.mem_cons_self, fun _ _ => trivial⟩
    · simp only [leaves, written, List.flatMap_cons, List.flatMap_map]
      rfl

theorem ScalarType.vector_prefixCode (host : Endian) (s : ScalarType) (n : Nat) :
    PrefixCode (fun xs : List.Vector s.Val n => ∀ k, .length k ∈ xs.toList.flatMap s.leaves → k < 2 ^ 32)
      fun xs => written host (xs.toList.flatMap s.leaves) := by
  refine ((s.encoding_prefixCode host).vector n).mono (fun xs h x hx k hk => ?_) fun xs => ?_
  · exact h k (List.mem_flatMap.mpr ⟨x, hx, hk⟩)
  · exact List.flatMap_assoc

mutual

/-- **What is written for the values of a type is a prefix code**, on either host. -/
theorem Ty.encoding_prefixCode (host : Endian) : ∀ t : Ty, t.Supported →
    PrefixCode (fun v => ∀ k, .length k ∈ t.leaves v → k < 2 ^ 32) (t.encoding host)
  | .scalar s, _ => s.encoding_prefixCode host
  | .cArray s n, _ | .stdArray (.scalar s) n, _ => s.vector_prefixCode host n
  | .vector t, ht => by
    refine ((length_prefixCode host).counted (t.encoding_prefixCode host ht)).mono (fun xs h => ?_) fun xs => ?_
    · exact ⟨h xs.length List.mem_cons_self, fun x hx k hk =>
        h k (List.mem_cons_of_mem _ (List.mem_flatMap.mpr ⟨x, hx, hk⟩))⟩
    · rw [Ty.encoding, Ty.leaves, written_cons, written, List.flatMap_assoc]
      rfl
  | .struct fields, ht => fields.encoding_prefixCode host ht

theorem Pack.encoding_prefixCode (host : Endian) : ∀ ts : Pack, ts.Supported →
    PrefixCode (fun vs => ∀ k, .length k ∈ ts.leaves vs → k < 2 ^ 32) (ts.encoding host)
  | .nil, _ => PrefixCode.of_subsingleton
  | .cons t ts, hts => by
    refine ((t.encoding_prefixCode host hts.1).prod (ts.encoding_prefixCode host hts.2)).mono (fun p h => ?_)
      fun p => ?_
    · exact ⟨fun k hk => h k (List.mem_append_left _ hk), fun k hk => h k (List.mem_append_right _ hk)⟩
    · exact List.flatMap_append

end

/-! ## Outputs -/

/-- What `serialize` returns is the encoding of the value, which has no NaN then. -/
theorem serialize_eq_done {host : Endian} {t : Ty} (ht : t.Supported) {n : Nat} (hn : t.depth ≤ n) {v : t.Val}
    {bs : List UInt8} : serialize host n t v = .done bs ↔ t.NaNFree v ∧ bs = t.encoding host v := by
  rw [serialize_eq host hn v]
  by_cases hv : t.NaNFree v
  · rw [writeLeaves_done host _ _ hv (t.leaves_supported ht v)]
    constructor
    · intro h
      cases h
      exact ⟨hv, rfl⟩
    · rintro ⟨_, rfl⟩
      rfl
  · rw [writeLeaves_thrown host ht (not_nanFree.mp hv)]
    constructor
    · intro h
      cases h
    · rintro ⟨h, _⟩
      exact absurd h hv

/-- **What is written tells the value and where it ends**, on either host: of two buffers that start with outputs for
values of one type and are equal, the values are the same and so is what follows. If no output is empty, a stream of
outputs can be cut into them in one way only. -/
theorem output_unambiguous (host : Endian) (t : Ty) (ht : t.Supported) {n : Nat} (hn : t.depth ≤ n) :
    (∀ v w : t.Val, t.Unwrapped v → t.Unwrapped w → ∀ bs cs : List UInt8, serialize host n t v = .done bs →
      serialize host n t w = .done cs → ∀ x y, bs ++ x = cs ++ y → v = w ∧ x = y) ∧
    ((∀ v, serialize host n t v ≠ .done []) →
      InformationTheory.UniquelyDecodable {bs | ∃ v, t.Unwrapped v ∧ serialize host n t v = .done bs}) := by
  have hcode : PrefixCode (fun v => t.NaNFree v ∧ t.Unwrapped v) (t.encoding host) :=
    (t.encoding_prefixCode host ht).mono (fun v h k hk => h.2 k (mem_counts.mpr hk)) fun _ => rfl
  constructor
  · intro v w hv hw bs cs hbs hcs
    obtain ⟨hnv, rfl⟩ := (serialize_eq_done ht hn).mp hbs
    obtain ⟨hnw, rfl⟩ := (serialize_eq_done ht hn).mp hcs
    exact hcode v w ⟨hnv, hv⟩ ⟨hnw, hw⟩
  · intro hne
    have houtputs : {bs | ∃ v, t.Unwrapped v ∧ serialize host n t v = .done bs} =
        t.encoding host '' {v | t.NaNFree v ∧ t.Unwrapped v} := by
      ext bs
      constructor
      · rintro ⟨v, hv, hbs⟩
        obtain ⟨hnv, rfl⟩ := (serialize_eq_done ht hn).mp hbs
        exact ⟨v, ⟨hnv, hv⟩, rfl⟩
      · rintro ⟨v, ⟨hnv, hv⟩, rfl⟩
        exact ⟨v, hv, (serialize_eq_done ht hn).mpr ⟨hnv, rfl⟩⟩
    rw [houtputs]
    refine hcode.uniquelyDecodable fun v hv hnil => hne v ?_
    exact (serialize_eq_done ht hn).mpr ⟨hv.1, hnil.symm⟩

/-- Vectors of `uint16_t` on a big-endian host, where each element is written twice. -/
theorem output_unambiguous_vector : InformationTheory.UniquelyDecodable {bs | ∃ v,
    (Ty.vector (.scalar (.integral (.int .unsigned .w16)))).Unwrapped v ∧
      serialize .big 2 (.vector (.scalar (.integral (.int .unsigned .w16)))) v = .done bs} := by
  have hsupported : (Ty.vector (.scalar (.integral (.int .unsigned .w16)))).Supported := trivial
  have hdepth : (Ty.vector (.scalar (.integral (.int .unsigned .w16)))).depth ≤ 2 := by decide
  refine (output_unambiguous .big _ hsupported hdepth).2 fun v h => ?_
  obtain ⟨_, hnil⟩ := (serialize_eq_done hsupported hdepth).mp h
  have hlen := congrArg List.length hnil
  simp [Ty.encoding, Ty.leaves, Leaf.bytes, IntegralType.size, Width.bytes] at hlen
  omega

end Borsh
