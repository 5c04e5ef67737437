import Borsh.Decode
import Borsh.Reference

/-!
# Decoding undoes encoding

The reader of a type takes the reference encoding of a value and returns the value (`Ty.read_yields`), on either host,
when the host reads every length prefix in it as the length it stands for (`Endian.ReadsCount`). A little-endian host
does so up to `INT32_MAX` (`readsCount_little`), a big-endian one when the four bytes are also a palindrome
(`readsCount_big`). With the encoder, which writes the reference encoding, this is the round trip (`decode_encode`).
-/

namespace Borsh

/-! ## Length prefixes -/

/-- A prefix with the sign bit set is read as a loop that does not run. -/
theorem loopCount_eq (x : int32.Val) : loopCount x = if x.toNat ≤ int32Max then x.toNat else 0 := by
  have hx : x.toNat < 4294967296 := x.isLt
  have hi : x.toInt = if 2 * x.toNat < 4294967296 then (x.toNat : Int) else x.toNat - 4294967296 :=
    BitVec.toInt_eq_toNat_cond x
  rw [loopCount, hi]
  by_cases h : x.toNat ≤ int32Max
  · rw [if_pos h]
    simp only [int32Max] at h
    omega
  · rw [if_neg h]
    simp only [int32Max] at h
    omega

theorem loopCount_le (x : int32.Val) : loopCount x ≤ int32Max := by
  rw [loopCount_eq]
  split <;> omega

/-- The host reads the prefix of `n` as `n`. -/
def Endian.ReadsCount (host : Endian) (n : Nat) : Prop := loopCount (lengthOfBytes host (u32 n)) = n

theorem toNat_lengthOfBytes (host : Endian) {bs : List UInt8} (h : bs.length = 4) :
    (lengthOfBytes host bs).toNat = LittleEndian.value (host.order bs) := by
  have hlt := LittleEndian.value_lt (host.order bs)
  rw [Endian.length_order, h] at hlt
  exact Nat.mod_eq_of_lt hlt

theorem value_u32 {n : Nat} (hn : n ≤ int32Max) : LittleEndian.value (u32 n) = n := by
  rw [u32, LittleEndian.value_digits, Nat.mod_eq_of_lt]
  simp only [int32Max] at hn
  omega

theorem u32_value {bs : List UInt8} (h : bs.length = 4) : u32 (LittleEndian.value bs) = bs := by
  have hd := LittleEndian.digits_value bs
  rwa [h] at hd

theorem readsCount_iff (host : Endian) (n : Nat) :
    host.ReadsCount n ↔ n ≤ int32Max ∧ host.order (u32 n) = u32 n := by
  rw [Endian.ReadsCount, loopCount_eq, toNat_lengthOfBytes host (length_u32 n)]
  have hl : (host.order (u32 n)).length = 4 := by rw [Endian.length_order, length_u32]
  constructor
  · intro h
    split at h
    · rename_i hle
      rw [h] at hle
      refine ⟨hle, ?_⟩
      rw [← u32_value hl, h]
    · rename_i hgt
      -- read as zero, so it is zero, and then its bytes are no large number
      subst h
      exact absurd (by cases host <;> decide) hgt
  · rintro ⟨hle, horder⟩
    rw [horder, value_u32 hle, if_pos hle]

/-- A little-endian host reads the lengths up to `INT32_MAX`. -/
theorem readsCount_little (n : Nat) : Endian.little.ReadsCount n ↔ n ≤ int32Max := by
  simp [readsCount_iff, Endian.order]

/-- A big-endian host reads those of them whose four bytes are the same from both ends. -/
theorem readsCount_big (n : Nat) : Endian.big.ReadsCount n ↔ n ≤ int32Max ∧ (u32 n).reverse = u32 n :=
  readsCount_iff .big n

/-! ## The readers take the reference encoding -/

theorem length_reference_integral (t : IntegralType) (x : t.Val) : (t.reference x).length = t.size := by
  rw [reference_integral, length_objectBytes]

theorem readIntegral_yields (host : Endian) (t : IntegralType) (x : t.Val) :
    (readIntegral host t).Yields (t.reference x) x := by
  have htake := Reader.yields_take Fault.outOfRange (t.reference x)
  rw [length_reference_integral] at htake
  have hlittle : ofObjectBytes .little t (t.reference x) = some x := by
    rw [reference_integral, ofObjectBytes_objectBytes]
  intro rest
  rw [readIntegral, Reader.run_bind_ok (htake rest)]
  cases host with
  | little => rw [hlittle]; rfl
  | big =>
    -- what the host loads is swapped into what a little-endian host loads
    rw [← byteswap_ofObjectBytes_big t (length_reference_integral t x)] at hlittle
    obtain ⟨y, hy, rfl⟩ := Option.map_eq_some_iff.mp hlittle
    rw [hy]
    rfl

/-- A float is read as the integer of its width. -/
theorem readFloat_run (host : Endian) (f : FloatType) (bs : List UInt8) : (readFloat host f).run bs =
    ((readIntegral host (.int .signed f.width)).bind fun int => .pure (intToFloat int)).run bs := by
  have hsize : (IntegralType.int .signed f.width).size = f.size := rfl
  simp only [readFloat, readIntegral, Reader.bind, hsize]
  cases (Reader.take Fault.outOfRange f.size).run bs with
  | error e => rfl
  | ok q => cases host <;> rfl

theorem readFloat_yields (host : Endian) (f : FloatType) (x : f.Val) :
    (readFloat host f).Yields (f.reference x) x := by
  intro rest
  rw [readFloat_run, reference_floating, ← reference_integral]
  exact Reader.Yields.map (readIntegral_yields host (.int .signed f.width) (floatToInt x)) intToFloat rest

theorem readCount_yields {host : Endian} {n : Nat} (h : host.ReadsCount n) : (readCount host).Yields (u32 n) n := by
  have htake := Reader.yields_take Fault.outOfRange (u32 n)
  rw [length_u32] at htake
  have hmap := Reader.Yields.map htake fun bytes => loopCount (lengthOfBytes host bytes)
  rwa [h] at hmap

theorem ScalarType.read_yields (host : Endian) : ∀ (s : ScalarType) (x : s.Val),
    (∀ n, .length n ∈ s.leaves x → host.ReadsCount n) → (s.read host).Yields (s.reference x) x
  | .integral t, x, _ => readIntegral_yields host t x
  | .floating f, x, _ => readFloat_yields host f x
  | .string, cs, h => by
    have hcs : (Reader.times (.item Fault.outOfRange) cs.length).Yields (cs.flatMap fun c => [c]) cs :=
      Reader.yields_times cs fun c _ => Reader.yields_item _ c
    rw [List.flatMap_singleton'] at hcs
    exact Reader.Yields.bind (readCount_yields (h cs.length List.mem_cons_self)) hcs

theorem ScalarType.vector_yields {host : Endian} {s : ScalarType} {n : Nat} {xs : List.Vector s.Val n}
    (h : ∀ k, .length k ∈ xs.toList.flatMap s.leaves → host.ReadsCount k) :
    (Reader.vector (s.read host) n).Yields (xs.toList.flatMap s.reference) xs :=
  Reader.yields_vector xs fun x hx => s.read_yields host x fun k hk => h k (List.mem_flatMap.mpr ⟨x, hx, hk⟩)

mutual

/-- **The reader of a type takes the reference encoding**, when the host reads every length as it stands. -/
theorem Ty.read_yields (host : Endian) : ∀ (t : Ty) (v : t.Val), (∀ l ∈ t.leaves v, l.isReentry = false) →
    (∀ n, .length n ∈ t.leaves v → host.ReadsCount n) → (t.read host).Yields (t.reference v) v
  | .scalar s, x, _, hc => s.read_yields host x hc
  | .cArray _ _, _, _, hc | .stdArray (.scalar _) _, _, _, hc => ScalarType.vector_yields hc
  | .stdArray (.cArray _ _) _, _, hr, _ | .stdArray (.stdArray _ _) _, _, hr, _ | .stdArray (.vector _) _, _, hr, _
  | .stdArray (.struct _) _, _, hr, _ => absurd (hr .reentry List.mem_cons_self) (by decide)
  | .vector t, xs, hr, hc => by
    refine Reader.Yields.bind (readCount_yields (hc xs.length List.mem_cons_self)) ?_
    refine Reader.yields_times xs fun x hx => t.read_yields host x (fun l hl => ?_) fun n hn => ?_
    · exact hr l (List.mem_cons_of_mem _ (List.mem_flatMap.mpr ⟨x, hx, hl⟩))
    · exact hc n (List.mem_cons_of_mem _ (List.mem_flatMap.mpr ⟨x, hx, hn⟩))
  | .struct fields, xs, hr, hc => fields.read_yields host xs hr hc

theorem Pack.read_yields (host : Endian) : ∀ (ts : Pack) (vs : ts.Val), (∀ l ∈ ts.leaves vs, l.isReentry = false) →
    (∀ n, .length n ∈ ts.leaves vs → host.ReadsCount n) → (ts.read host).Yields (ts.reference vs) vs
  | .nil, _, _, _ => Reader.yields_pure ()
  | .cons t ts, (x, xs), hr, hc => by
    have hx := t.read_yields host x (fun l hl => hr l (List.mem_append_left _ hl))
      fun n hn => hc n (List.mem_append_left _ hn)
    have hxs := ts.read_yields host xs (fun l hl => hr l (List.mem_append_right _ hl))
      fun n hn => hc n (List.mem_append_right _ hn)
    exact Reader.Yields.bind hx (Reader.Yields.map hxs fun values => (x, values))

end

/-! ## The round trip -/

/-- At a cursor in front of the reference encoding of `v`, a visit assigns `v` and moves the cursor behind it. -/
theorem visit_reference {host : Endian} {t : Ty} (ht : t.Supported) {v : t.Val}
    (hc : ∀ n ∈ t.counts v, host.ReadsCount n) {n : Nat} (hn : t.depth ≤ n) (before after : List UInt8) (old : t.Val) :
    visit host n t (old, ⟨.deserialize, before ++ (t.reference v ++ after), before.length⟩) =
      .done (v, ⟨.deserialize, before ++ (t.reference v ++ after), before.length + (t.reference v).length⟩) := by
  rw [visit_deserialize host t n hn old _ rfl]
  have hy := t.read_yields host v (t.leaves_supported ht v) fun n hn => hc n (mem_counts.mpr hn)
  rw [hy.runAt before after]
  rfl

theorem call_reference {host : Endian} {ts : Pack} (hts : ts.Supported) {vs : ts.Val}
    (hc : ∀ n ∈ ts.counts vs, host.ReadsCount n) {n : Nat} (hn : ts.depth ≤ n) (before after : List UInt8)
    (old : ts.Val) :
    call (visit host n) ts (old, ⟨.deserialize, before ++ (ts.reference vs ++ after), before.length⟩) =
      .done (vs, ⟨.deserialize, before ++ (ts.reference vs ++ after), before.length + (ts.reference vs).length⟩) := by
  rw [call_deserialize host ts n hn old _ rfl]
  have hy := ts.read_yields host vs (ts.leaves_supported hts vs) fun n hn => hc n (mem_counts.mpr hn)
  rw [hy.runAt before after]
  rfl

theorem deserialize_reference {host : Endian} {t : Ty} (ht : t.Supported) {v : t.Val}
    (hc : ∀ n ∈ t.counts v, host.ReadsCount n) {n : Nat} (hn : t.depth ≤ n) (after : List UInt8) :
    deserialize host n (t.reference v ++ after) t = .done (v, (t.reference v).length) := by
  have hy := t.read_yields host v (t.leaves_supported ht v) fun n hn => hc n (mem_counts.mpr hn)
  exact (deserialize_eq_done hn).mpr ⟨t.reference v, after, rfl, hy, rfl⟩

/-- **Decoding undoes encoding** on a little-endian host: for one value, and for a list of values of any types in a
row. The bytes written are read back as the value, wherever they stand and whatever the object held before, and the
cursor ends behind them. -/
theorem decode_encode :
    (∀ (t : Ty) (v : t.Val), t.Supported → t.NaNFree v → (∀ k ∈ t.counts v, k ≤ int32Max) →
      ∃ bytes : List UInt8, ∀ n, t.depth ≤ n →
        (∀ b p, visit .little n t (v, ⟨.serialize, b, p⟩) = .done (v, ⟨.serialize, b ++ bytes, p⟩)) ∧
        ∀ before after old,
          visit .little n t (old, ⟨.deserialize, before ++ (bytes ++ after), before.length⟩) =
            .done (v, ⟨.deserialize, before ++ (bytes ++ after), before.length + bytes.length⟩)) ∧
    ∀ (ts : Pack) (vs : ts.Val), ts.Supported → ts.NaNFree vs → (∀ k ∈ ts.counts vs, k ≤ int32Max) →
      ∃ bytes : List UInt8, ∀ n, ts.depth ≤ n →
        (∀ b p, call (visit .little n) ts (vs, ⟨.serialize, b, p⟩) = .done (vs, ⟨.serialize, b ++ bytes, p⟩)) ∧
        ∀ before after old,
          call (visit .little n) ts (old, ⟨.deserialize, before ++ (bytes ++ after), before.length⟩) =
            .done (vs, ⟨.deserialize, before ++ (bytes ++ after), before.length + bytes.length⟩) := by
  constructor
  · intro t v ht hv hc
    refine ⟨t.reference v, fun n hn => ⟨fun b p => ?_, fun before after old => ?_⟩⟩
    · rw [visit_serialize_done .little ht hn hv rfl, encoding_little ht v]
      rfl
    · exact visit_reference ht (fun k hk => (readsCount_little k).mpr (hc k hk)) hn before after old
  · intro ts vs hts hvs hc
    refine ⟨ts.reference vs, fun n hn => ⟨fun b p => ?_, fun before after old => ?_⟩⟩
    · rw [call_serialize_done .little hts hn hvs rfl, Pack.encoding_little hts vs]
      rfl
    · exact call_reference hts (fun k hk => (readsCount_little k).mpr (hc k hk)) hn before after old

/-- A `uint16_t` and a vector of strings, between other bytes. -/
theorem decode_encode_pair : ∃ bytes : List UInt8,
    call (visit .little 2) (.cons (.scalar (.integral (.int .unsigned .w16))) (.cons (.vector (.scalar .string)) .nil))
        ((513, [[104], []], ()), ⟨.serialize, [9], 0⟩) =
      .done ((513, [[104], []], ()), ⟨.serialize, [9] ++ bytes, 0⟩) ∧
    call (visit .little 2) (.cons (.scalar (.integral (.int .unsigned .w16))) (.cons (.vector (.scalar .string)) .nil))
        ((7, [[1, 2]], ()), ⟨.deserialize, [9] ++ (bytes ++ [5]), 1⟩) =
      .done ((513, [[104], []], ()), ⟨.deserialize, [9] ++ (bytes ++ [5]), 1 + bytes.length⟩) := by
  obtain ⟨bytes, h⟩ := decode_encode.2
    (.cons (.scalar (.integral (.int .unsigned .w16))) (.cons (.vector (.scalar .string)) .nil))
    (513, [[104], []], ()) ⟨trivial, trivial, trivial⟩ (by decide) (by decide)
  obtain ⟨hencode, hdecode⟩ := h 2 (by decide)
  exact ⟨bytes, hencode [9] 0, hdecode [9] [5] (7, [[1, 2]], ())⟩

end Borsh
