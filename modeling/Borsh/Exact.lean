import Borsh.Bounds
import Borsh.Hosts
import Borsh.Lengths
import Borsh.Termination
import Borsh.Unambiguous

/-!
# The decoder decides the layout relation

The reader of a type yields a value from its layouts (`Ty.yields_iff`), so a visit in the `Deserialize` direction
returns exactly when the bytes at the cursor start with such a layout (`visit_deserialize_iff`). It follows which values
can be decoded at all, and from how many bytes (`decoded_iff`), and that encoding what was decoded gives a normal form
of the bytes (`normal_form`).
-/

namespace Borsh

/-- **A visit in the `Deserialize` direction returns exactly when the bytes at the cursor start with a layout of a
value**, and then assigns that value and moves the cursor behind the layout. -/
theorem visit_deserialize_iff (host : Endian) (t : Ty) {n : Nat} (hn : t.depth ≤ n) (b : List UInt8) (p : Nat)
    (old v : t.Val) (s : Serializer) : visit host n t (old, ⟨.deserialize, b, p⟩) = .done (v, s) ↔
      ∃ used rest ps, b.drop p = used ++ rest ∧ Layout host used (t.leaves v) ps ∧
        s = ⟨.deserialize, b, p + used.length⟩ := by
  rw [visit_deserialize host t n hn old _ rfl, Outcome.ofExcept_eq_done]
  constructor
  · rintro ⟨⟨a, p'⟩, hrun, hs⟩
    obtain ⟨used, rest, hsplit, hy, rfl⟩ := Reader.runAt_eq_ok.mp hrun
    obtain ⟨rfl, rfl⟩ := Prod.mk.inj hs
    obtain ⟨ps, hlayout⟩ := (t.yields_iff host).mp hy
    exact ⟨used, rest, ps, hsplit, hlayout, rfl⟩
  · rintro ⟨used, rest, ps, hsplit, hlayout, rfl⟩
    exact ⟨(v, p + used.length), Reader.runAt_eq_ok.mpr ⟨used, rest, hsplit, Ty.yields_of_layout hlayout, rfl⟩, rfl⟩

/-- A vector of `uint16_t` in the order of a big-endian host, inside a buffer. -/
theorem visit_deserialize_iff_vector :
    visit .big 2 (.vector (.scalar (.integral (.int .unsigned .w16))))
        ([9, 9], ⟨.deserialize, [7, 0, 0, 0, 1, 5, 0, 8], 1⟩) =
      .done ([5], ⟨.deserialize, [7, 0, 0, 0, 1, 5, 0, 8], 7⟩) := by
  have hdepth : (Ty.vector (.scalar (.integral (.int .unsigned .w16)))).depth ≤ 2 := by decide
  refine (visit_deserialize_iff .big _ hdepth _ 1 [9, 9] [5] _).mpr
    ⟨[0, 0, 0, 1, 5, 0], [8], [.length [0, 0, 0, 1], .integral (.int .unsigned .w16) [5, 0]], rfl, ?_, rfl⟩
  exact ⟨rfl, .cons (.length rfl) (.cons (.integral rfl) .nil)⟩

/-! ## The cursor -/

/-- A layout of the leaves stands at the cursor of `s`, and `s'` is `s` with the cursor behind it. -/
def Consumes (host : Endian) (ls : List Leaf) (s s' : Serializer) : Prop :=
  ∃ used rest ps, s.buffer.drop s.bufferPointer = used ++ rest ∧ Layout host used ls ps ∧
    s' = s.withPointer (s.bufferPointer + used.length)

theorem Consumes.direction_eq {host : Endian} {ls : List Leaf} {s s' : Serializer} (h : Consumes host ls s s') :
    s'.direction = s.direction := by
  obtain ⟨used, rest, ps, _, _, rfl⟩ := h
  rfl

theorem consumes_nil_iff {host : Endian} {s s' : Serializer} : Consumes host [] s s' ↔ s' = s := by
  constructor
  · intro h
    obtain ⟨used, rest, ps, _, hlayout, rfl⟩ := h
    obtain rfl := hlayout.nil
    rfl
  · intro h
    exact ⟨[], _, [], rfl, layout_nil host, h⟩

/-- Leaves that stand one behind the other are consumed one after the other. -/
theorem consumes_append_iff {host : Endian} {ls ls' : List Leaf} {s s'' : Serializer} :
    Consumes host (ls ++ ls') s s'' ↔ ∃ s', Consumes host ls s s' ∧ Consumes host ls' s' s'' := by
  constructor
  · intro h
    obtain ⟨used, rest, ps, hsplit, hlayout, rfl⟩ := h
    obtain ⟨front, back, qs, qs', rfl, hfront, hback⟩ := hlayout.split
    rw [List.append_assoc] at hsplit
    refine ⟨_, ⟨front, back ++ rest, qs, hsplit, hfront, rfl⟩, back, rest, qs', ?_, hback, ?_⟩
    · simp only [withPointer_buffer, withPointer_bufferPointer]
      rw [← List.drop_drop, hsplit, List.drop_left]
    · simp [Nat.add_assoc]
  · intro h
    obtain ⟨_, ⟨front, rest, qs, hsplit, hfront, rfl⟩, back, rest', qs', hsplit', hback, rfl⟩ := h
    simp only [withPointer_buffer, withPointer_bufferPointer] at hsplit'
    rw [← List.drop_drop, hsplit, List.drop_left] at hsplit'
    refine ⟨front ++ back, rest', qs ++ qs', ?_, hfront.append hback, ?_⟩
    · rw [hsplit, hsplit', List.append_assoc]
    · simp [Nat.add_assoc]

/-- A length is consumed by taking four bytes that are read as it. -/
theorem consumes_length_iff {host : Endian} {n : Nat} {s s' : Serializer} :
    Consumes host [.length n] s s' ↔ ∃ bytes rest, s.buffer.drop s.bufferPointer = bytes ++ rest ∧
      bytes.length = int32.size ∧ loopCount (lengthOfBytes host bytes) = n ∧
      s' = s.withPointer (s.bufferPointer + int32.size) := by
  constructor
  · intro h
    obtain ⟨used, rest, ps, hsplit, hlayout, rfl⟩ := h
    obtain ⟨p, u, qs, rfl, rfl, hp, hqs⟩ := hlayout.uncons
    obtain rfl := hqs.nil
    cases hp with
    | @length bytes hbytes =>
      rw [List.append_nil] at hsplit ⊢
      refine ⟨bytes, rest, hsplit, hbytes, rfl, ?_⟩
      rw [Piece.bytes, hbytes]
      rfl
  · intro h
    obtain ⟨bytes, rest, hsplit, hbytes, rfl, rfl⟩ := h
    refine ⟨bytes, rest, [.length bytes], hsplit, ⟨?_, .cons (.length hbytes) .nil⟩, ?_⟩
    · simp [Piece.bytes]
    · rw [hbytes]

/-- `operator()` in the `Deserialize` direction consumes the leaves of the arguments that it leaves behind. -/
theorem call_done_iff (host : Endian) {ts : Pack} {n : Nat} (hn : ts.depth ≤ n) (old vs : ts.Val) {s s' : Serializer}
    (hs : s.direction = .deserialize) :
    call (visit host n) ts (old, s) = .done (vs, s') ↔ Consumes host (ts.leaves vs) s s' := by
  rw [call_deserialize host ts n hn old s hs, Outcome.ofExcept_eq_done]
  constructor
  · intro h
    obtain ⟨⟨a, p⟩, hrun, hq⟩ := h
    obtain ⟨used, rest, hsplit, hy, rfl⟩ := Reader.runAt_eq_ok.mp hrun
    obtain ⟨rfl, rfl⟩ := Prod.mk.inj hq
    obtain ⟨ps, hlayout⟩ := (ts.yields_iff host).mp hy
    exact ⟨used, rest, ps, hsplit, hlayout, rfl⟩
  · intro h
    obtain ⟨used, rest, ps, hsplit, hlayout, rfl⟩ := h
    have hy := (ts.yields_iff host).mpr ⟨ps, hlayout⟩
    exact ⟨(vs, _), Reader.runAt_eq_ok.mpr ⟨used, rest, hsplit, hy, rfl⟩, rfl⟩

/-! ## What can be decoded -/

/-- The bytes that a host reads as this leaf: its reference encoding, but a length in the order of the host. -/
def Leaf.input (host : Endian) : Leaf → List UInt8
  | .integral t x => t.reference x
  | .floating f x => f.reference x
  | .length n => objectBytes host int32 (toInt32 n)
  | .char c => [c]
  | .reentry => []

/-- A host reads what it writes for a length up to `INT32_MAX` as that length. -/
theorem loopCount_objectBytes (host : Endian) {n : Nat} (hn : n ≤ int32Max) :
    loopCount (lengthOfBytes host (objectBytes host int32 (toInt32 n))) = n := by
  have hread : lengthOfBytes host (objectBytes host int32 (toInt32 n)) = toInt32 n := by
    have h := ofObjectBytes_objectBytes host int32 (toInt32 n)
    exact Option.some.inj h
  have hbits : (toInt32 n).toNat = n := by
    have h : (toInt32 n).toNat = n % 2 ^ 32 := BitVec.toNat_ofNat n 32
    rw [h, Nat.mod_eq_of_lt]
    simp only [int32Max] at hn
    omega
  rw [hread, loopCount_eq, hbits, if_pos hn]

/-- The leaves of a value have a layout, when no length is above `INT32_MAX`. -/
theorem exists_layout (host : Endian) {ls : List Leaf} (hr : ∀ l ∈ ls, l.isReentry = false)
    (hc : ∀ n, .length n ∈ ls → n ≤ int32Max) : ∃ ps, Layout host (ls.flatMap (Leaf.input host)) ls ps := by
  induction ls with
  | nil => exact ⟨[], layout_nil host⟩
  | cons l ls ih =>
    obtain ⟨ps, hps⟩ := ih (fun k hk => hr k (List.mem_cons_of_mem _ hk)) fun n hn => hc n (List.mem_cons_of_mem _ hn)
    rw [List.flatMap_cons]
    cases l with
    | integral t x => exact ⟨_, layout_cons (.integral rfl) hps⟩
    | floating f x => exact ⟨_, layout_cons (.floating rfl) hps⟩
    | length n =>
      have hread : Piece.Reads host (.length (objectBytes host int32 (toInt32 n))) (.length n) := by
        have hcount := loopCount_objectBytes host (hc n List.mem_cons_self)
        conv_rhs => rw [← hcount]
        exact .length (length_objectBytes host int32 (toInt32 n))
      exact ⟨_, layout_cons hread hps⟩
    | char c => exact ⟨_, layout_cons (.char c) hps⟩
    | reentry => cases hr .reentry List.mem_cons_self

theorem Piece.Reads.length_bytes {host : Endian} {p : Piece} {l : Leaf} (h : p.Reads host l) :
    p.bytes.length = l.size := by
  cases h with
  | integral h => rw [Piece.bytes, ← h, length_reference_integral, Leaf.size]
  | floating h => rw [Piece.bytes, ← h, FloatType.reference, LittleEndian.length_digits, Leaf.size]
  | length h => exact h
  | char c => rfl

/-- The layouts of a value are all of one length. -/
theorem Layout.length {host : Endian} {used : List UInt8} {ls : List Leaf} {ps : List Piece}
    (h : Layout host used ls ps) : used.length = (ls.map Leaf.size).sum := by
  obtain ⟨rfl, hreads⟩ := h
  induction hreads with
  | nil => rfl
  | cons hp _ ih => rw [List.flatMap_cons, List.length_append, hp.length_bytes, ih, List.map_cons, List.sum_cons]

/-- A decoding takes the sizes of the leaves of its value from the buffer. -/
theorem deserialize_size {host : Endian} {t : Ty} {n : Nat} (hn : t.depth ≤ n) {bs : List UInt8} {v : t.Val} {k : Nat}
    (h : deserialize host n bs t = .done (v, k)) : k = ((t.leaves v).map Leaf.size).sum ∧ k ≤ bs.length := by
  obtain ⟨used, rest, rfl, hy, rfl⟩ := (deserialize_eq_done hn).mp h
  obtain ⟨ps, hlayout⟩ := (t.yields_iff host).mp hy
  exact ⟨hlayout.length, by simp⟩

/-- The leaves of a value without longer lengths are decoded from the bytes that the host expects for them. -/
theorem deserialize_input (host : Endian) {t : Ty} (ht : t.Supported) {n : Nat} (hn : t.depth ≤ n) {v : t.Val}
    (hc : ∀ c ∈ t.counts v, c ≤ int32Max) (rest : List UInt8) :
    deserialize host n ((t.leaves v).flatMap (Leaf.input host) ++ rest) t =
      .done (v, ((t.leaves v).map Leaf.size).sum) := by
  obtain ⟨ps, hlayout⟩ := exists_layout host (t.leaves_supported ht v) fun n hn => hc n (mem_counts.mpr hn)
  exact (deserialize_eq_done hn).mpr ⟨_, rest, rfl, Ty.yields_of_layout hlayout, hlayout.length.symm⟩

/-- **The values that can be decoded** are those without a string or vector longer than `INT32_MAX`, on either host, and
every one of them takes the sizes of its leaves from the buffer. -/
theorem decoded_iff (host : Endian) (t : Ty) (ht : t.Supported) {n : Nat} (hn : t.depth ≤ n) (v : t.Val) :
    ((∃ bs k, deserialize host n bs t = .done (v, k)) ↔ ∀ c ∈ t.counts v, c ≤ int32Max) ∧
    ∀ bs k, deserialize host n bs t = .done (v, k) → k = ((t.leaves v).map Leaf.size).sum := by
  refine ⟨⟨?_, fun hc => ?_⟩, fun bs k h => (deserialize_size hn h).1⟩
  · rintro ⟨bs, k, h⟩
    exact deserialize_counts_le hn h
  · exact ⟨_, _, deserialize_input host ht hn hc []⟩

/-- A vector of two strings on a big-endian host, from thirteen bytes. -/
theorem decoded_iff_strings :
    (∃ bs k, deserialize .big 2 bs (.vector (.scalar .string)) = .done ([[97], []], k)) ∧
    ∀ bs k, deserialize .big 2 bs (.vector (.scalar .string)) = .done ([[97], []], k) → k = 13 := by
  have hdepth : (Ty.vector (.scalar .string)).depth ≤ 2 := by decide
  have hrule := decoded_iff .big (.vector (.scalar .string)) trivial hdepth [[97], []]
  exact ⟨hrule.1.mpr (by decide), hrule.2⟩

/-! ## The normal form of a buffer -/

/-- **Encoding what was decoded gives a normal form** on a little-endian host: as many bytes as were taken, which are
decoded to the same value wherever they stand, and encoded from it again. -/
theorem normal_form (t : Ty) (ht : t.Supported) {n : Nat} (hn : t.depth ≤ n) {bs : List UInt8} {v : t.Val} {k : Nat}
    (h : deserialize .little n bs t = .done (v, k)) (hv : t.NaNFree v) :
    ∃ canonical : List UInt8, serialize .little n t v = .done canonical ∧ canonical.length = k ∧
      (∀ rest, deserialize .little n (canonical ++ rest) t = .done (v, k)) ∧
      ∀ bs' v' k', deserialize .little n bs' t = .done (v', k') →
        (serialize .little n t v' = .done canonical ↔ v' = v) := by
  have hc : ∀ c ∈ t.counts v, Endian.little.ReadsCount c := fun c hc =>
    (readsCount_little c).mpr (deserialize_counts_le hn h c hc)
  have hlen : (t.reference v).length = k := by
    obtain ⟨ps, _, haudit⟩ := deserialize_audit hn h
    have hle := (deserialize_size hn h).2
    rw [← haudit.length_eq rfl, List.length_take]
    omega
  refine ⟨t.reference v, serialize_reference ht hn hv, hlen, fun rest => ?_, fun bs' v' k' h' => ⟨fun hs => ?_, ?_⟩⟩
  · rw [← hlen]
    exact deserialize_reference ht hc hn rest
  · obtain ⟨_, henc⟩ := (serialize_eq_done ht hn).mp hs
    rw [encoding_little ht v'] at henc
    have hc' : ∀ c ∈ t.counts v', Endian.little.ReadsCount c := fun c hc =>
      (readsCount_little c).mpr (deserialize_counts_le hn h' c hc)
    -- one buffer, decoded once
    have hdecode := deserialize_reference ht hc hn []
    rw [henc, deserialize_reference ht hc' hn []] at hdecode
    cases hdecode
    rfl
  · rintro rfl
    exact serialize_reference ht hn hv

/-- A vector behind the prefix `0xFFFFFFFF`, which is read as empty and written with the prefix zero. -/
theorem normal_form_vector :
    ∃ canonical : List UInt8,
      serialize .little 2 (.vector (.scalar (.integral (.int .unsigned .w8)))) [] = .done canonical ∧
      canonical.length = 4 ∧
      ∀ rest, deserialize .little 2 (canonical ++ rest) (.vector (.scalar (.integral (.int .unsigned .w8)))) =
        .done ([], 4) := by
  have hdepth : (Ty.vector (.scalar (.integral (.int .unsigned .w8)))).depth ≤ 2 := by decide
  have hdecode : deserialize .little 2 [0xFF, 0xFF, 0xFF, 0xFF, 7]
      (.vector (.scalar (.integral (.int .unsigned .w8)))) =
    .done ([], 4) := rfl
  obtain ⟨canonical, hs, hlen, hrest, _⟩ :=
    normal_form (.vector (.scalar (.integral (.int .unsigned .w8)))) trivial hdepth hdecode (by decide)
  exact ⟨canonical, hs, hlen, hrest⟩

end Borsh
