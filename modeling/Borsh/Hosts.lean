import Borsh.NaN

/-!
# The two byte orders

On a big-endian host the encoder appends every integer and float twice, swapped and as it is (`integralBytes_big`), so
its output is the little-endian one only where nothing is written (`fixed_hosts_agree_iff`). The decoder swaps numbers
as it should: it reads their reference encoding on both hosts (`fixed_decoding_portable`). Length prefixes are copied
as they are, in the order of the host, and so are exchanged between the two only when their four bytes are the same
from both ends (`prefixes_portable_iff`).
-/

namespace Borsh

/-! ## Types without strings and vectors -/

/-- The size of the scalar at a leaf. -/
def Leaf.size : Leaf → Nat
  | .integral t _ => t.size
  | .floating f _ => f.size
  | .length _ => int32.size
  | .char _ => 1
  | .reentry => 0

/-- A numeric leaf is written twice on a big-endian host, the first time as on a little-endian one. -/
theorem integralBytes_big (t : IntegralType) (x : t.Val) :
    integralBytes .big t x = integralBytes .little t x ++ (integralBytes .little t x).reverse := by
  simp [integralBytes, objectBytes_byteswap, objectBytes_big]

theorem length_bytes_numeric : ∀ (l : Leaf), l.kind.isNumeric = true →
    (l.bytes .little).length = l.size ∧ (l.bytes .big).length = 2 * l.size ∧ 0 < l.size
  | .integral t x, _ => by
    have hlittle : (integralBytes .little t x).length = t.size := by simp [integralBytes]
    refine ⟨hlittle, ?_, t.size_pos⟩
    rw [Leaf.bytes, integralBytes_big, List.length_append, List.length_reverse, hlittle, Leaf.size]
    omega
  | .floating f x, _ => by
    have hlittle : (integralBytes .little (.int .signed f.width) (floatToInt x)).length = f.size := by
      simp [integralBytes, IntegralType.size, FloatType.size]
    refine ⟨hlittle, ?_, f.size_pos⟩
    rw [Leaf.bytes, integralBytes_big, List.length_append, List.length_reverse, hlittle, Leaf.size]
    omega

/-- A list of numeric leaves grows the buffer by twice its size on a big-endian host, and only the empty one has size
zero. -/
theorem length_written_numeric {ls : List Leaf} (h : ∀ l ∈ ls, l.kind.isNumeric = true) :
    (written .little ls).length = (ls.map Leaf.size).sum ∧ (written .big ls).length = 2 * (ls.map Leaf.size).sum ∧
      ((ls.map Leaf.size).sum = 0 → ls = []) := by
  induction ls with
  | nil => exact ⟨rfl, rfl, fun _ => rfl⟩
  | cons l ls ih =>
    obtain ⟨hl, hb, hpos⟩ := length_bytes_numeric l (h l List.mem_cons_self)
    obtain ⟨ihl, ihb, _⟩ := ih fun k hk => h k (List.mem_cons_of_mem l hk)
    rw [written_cons, written_cons, List.length_append, List.length_append, List.map_cons, List.sum_cons]
    refine ⟨by omega, by omega, fun h0 => ?_⟩
    omega

theorem Ty.Fixed.numeric {t : Ty} (ht : t.Fixed) (v : t.Val) : ∀ l ∈ t.leaves v, l.kind.isNumeric = true :=
  fun l hl => ht l.kind (t.kind_mem v l hl)

/-- **The numeric encoding is the same on both hosts only when it is empty.** -/
theorem fixed_hosts_agree_iff (t : Ty) (ht : t.Supported) (hfixed : t.Fixed) (v : t.Val) (hv : t.NaNFree v) {n : Nat}
    (hn : t.depth ≤ n) (b : List UInt8) (p : Nat) :
    ∃ big little, visit .big n t (v, ⟨.serialize, b, p⟩) = .done (v, ⟨.serialize, big, p⟩) ∧
      visit .little n t (v, ⟨.serialize, b, p⟩) = .done (v, ⟨.serialize, little, p⟩) ∧
      ((big = little ∧ big.length = b.length + ((t.leaves v).map Leaf.size).sum) ↔ t.leaves v = []) := by
  refine ⟨_, _, visit_serialize_done .big ht hn hv rfl, visit_serialize_done .little ht hn hv rfl, ?_⟩
  obtain ⟨hlittle, hbig, hzero⟩ := length_written_numeric (hfixed.numeric v)
  have hlen : (b ++ t.encoding .big v).length = b.length + 2 * ((t.leaves v).map Leaf.size).sum := by
    rw [List.length_append, Ty.encoding, hbig]
  constructor
  · rintro ⟨_, hgrowth⟩
    apply hzero
    have hgrowth' : (b ++ t.encoding .big v).length = b.length + ((t.leaves v).map Leaf.size).sum := hgrowth
    omega
  · intro hnil
    simp [Ty.encoding, hnil]

theorem fixed_hosts_agree_iff_byte :
    ∃ big little, visit .big 1 (.scalar (.integral (.int .unsigned .w8))) (5, ⟨.serialize, [], 0⟩) =
        .done (5, ⟨.serialize, big, 0⟩) ∧
      visit .little 1 (.scalar (.integral (.int .unsigned .w8))) (5, ⟨.serialize, [], 0⟩) =
        .done (5, ⟨.serialize, little, 0⟩) ∧ ¬ (big = little ∧ big.length = 0 + 1) := by
  have hdepth : (Ty.scalar (.integral (.int .unsigned .w8))).depth ≤ 1 := by decide
  obtain ⟨big, little, hbig, hlittle, hiff⟩ := fixed_hosts_agree_iff (.scalar (.integral (.int .unsigned .w8)))
    trivial (by decide) 5 (by decide) hdepth [] 0
  exact ⟨big, little, hbig, hlittle, fun h => List.cons_ne_nil _ _ (hiff.mp h)⟩

/-- A `uint8_t` is written as two bytes on a big-endian host. -/
theorem fixed_hosts_differ :
    serialize .big 1 (.scalar (.integral (.int .unsigned .w8))) 5 = .done [5, 5] ∧
    serialize .little 1 (.scalar (.integral (.int .unsigned .w8))) 5 = .done [5] :=
  ⟨rfl, rfl⟩

theorem Ty.Fixed.counts_eq {t : Ty} (ht : t.Fixed) (v : t.Val) : t.counts v = [] := by
  apply List.eq_nil_iff_forall_not_mem.mpr
  intro k hk
  have hnumeric := ht.numeric v (.length k) (mem_counts.mp hk)
  cases hnumeric

/-- **The numeric reference encoding is decoded alike on both hosts**: to the value, with the cursor behind it. -/
theorem fixed_decoding_portable (t : Ty) (ht : t.Supported) (hfixed : t.Fixed) (v : t.Val) {n : Nat}
    (hn : t.depth ≤ n) :
    (t.reference v).length = ((t.leaves v).map Leaf.size).sum ∧
    ∀ host : Endian,
      (∀ before after old,
        visit host n t (old, ⟨.deserialize, before ++ (t.reference v ++ after), before.length⟩) =
          .done (v, ⟨.deserialize, before ++ (t.reference v ++ after), before.length + (t.reference v).length⟩)) ∧
      ∀ after, deserialize host n (t.reference v ++ after) t = .done (v, (t.reference v).length) := by
  refine ⟨?_, fun host => ?_⟩
  · rw [← encoding_little ht v]
    exact (length_written_numeric (hfixed.numeric v)).1
  · have hc : ∀ k ∈ t.counts v, host.ReadsCount k := by
      intro k hk
      rw [hfixed.counts_eq v] at hk
      cases hk
    exact ⟨visit_reference ht hc hn, deserialize_reference ht hc hn⟩

/-- A struct of a `double`, an array of two `int16_t` and a `bool`, on a big-endian host. -/
theorem fixed_decoding_portable_struct :
    deserialize .big 3 [0, 0, 0, 0, 0, 0, 0, 0x40, 1, 0, 0, 0x80, 1, 9] (.struct (.cons (.scalar (.floating .double))
        (.cons (.stdArray (.scalar (.integral (.int .signed .w16))) 2) (.cons (.scalar (.integral .bool)) .nil)))) =
      .done ((⟨0x4000000000000000⟩, ⟨[1, 0x8000], rfl⟩, true, ()), 13) := by
  have hdepth : (Ty.struct (.cons (.scalar (.floating .double)) (.cons (.stdArray (.scalar (.integral
    (.int .signed .w16))) 2) (.cons (.scalar (.integral .bool)) .nil)))).depth ≤ 3 := by decide
  exact ((fixed_decoding_portable (.struct (.cons (.scalar (.floating .double)) (.cons (.stdArray (.scalar (.integral
    (.int .signed .w16))) 2) (.cons (.scalar (.integral .bool)) .nil)))) ⟨trivial, rfl, trivial, trivial⟩ (by decide)
    (⟨0x4000000000000000⟩, ⟨[1, 0x8000], rfl⟩, true, ()) hdepth).2 .big).2 [9]

/-! ## Length prefixes -/

/-- The four bytes of a length in `buffer`, when it comes behind `b` and what is written of the leaves `front`. -/
def prefixBytes (host : Endian) (b : List UInt8) (front : List Leaf) (buffer : List UInt8) : List UInt8 :=
  (buffer.drop (b ++ written host front).length).take int32.size

theorem prefixBytes_written (host : Endian) (b : List UInt8) (front : List Leaf) (k : Nat) (back : List Leaf) :
    prefixBytes host b front (b ++ written host (front ++ .length k :: back)) = objectBytes host int32 (toInt32 k) := by
  rw [written_append, written_cons, ← List.append_assoc, prefixBytes, List.drop_left, Leaf.bytes]
  exact List.take_left' (length_objectBytes host int32 (toInt32 k))

theorem objectBytes_length_big (k : Nat) : objectBytes .big int32 (toInt32 k) = (u32 k).reverse := by
  rw [u32_eq, objectBytes_big]

/-- **Length prefixes are exchanged between the hosts exactly when their bytes are the same from both ends.** -/
theorem prefixes_portable_iff (t : Ty) (ht : t.Supported) (v : t.Val) (hc : ∀ k ∈ t.counts v, k ≤ int32Max) {n : Nat}
    (hn : t.depth ≤ n) (b : List UInt8) (p : Nat) :
    ∃ big little, (visit .big n t (v, ⟨.serialize, b, p⟩)).state? = some (v, ⟨.serialize, big, p⟩) ∧
      (visit .little n t (v, ⟨.serialize, b, p⟩)).state? = some (v, ⟨.serialize, little, p⟩) ∧
      (((∀ front k back, beforeNaN (t.leaves v) = front ++ .length k :: back →
          prefixBytes .little b front little = u32 k ∧ prefixBytes .big b front big = u32 k) ∧
        (t.NaNFree v → ∀ after old, ∃ v',
          visit .big n t (old, ⟨.deserialize, little ++ after, b.length⟩) =
            .done (v', ⟨.deserialize, little ++ after, little.length⟩) ∧
          t.counts v' = t.counts v)) ↔
        ∀ k, .length k ∈ beforeNaN (t.leaves v) → (u32 k).reverse = u32 k) := by
  refine ⟨_, _, visit_serialize_state .big ht hn v rfl, visit_serialize_state .little ht hn v rfl, ?_⟩
  simp only
  constructor
  · rintro ⟨hwritten, _⟩ k hk
    obtain ⟨front, back, hsplit⟩ := List.append_of_mem hk
    have hbig := (hwritten front k back hsplit).2
    rw [hsplit, prefixBytes_written, objectBytes_length_big] at hbig
    exact hbig
  · intro hsame
    refine ⟨fun front k back hsplit => ?_, fun hv after old => ?_⟩
    · rw [hsplit, prefixBytes_written, prefixBytes_written, objectBytes_length_big, ← u32_eq]
      exact ⟨rfl, hsame k (hsplit ▸ List.mem_append_right _ List.mem_cons_self)⟩
    · have hself : beforeNaN (t.leaves v) = t.leaves v := beforeNaN_eq_self hv
      have hreads : ∀ k ∈ t.counts v, Endian.big.ReadsCount k := fun k hk =>
        (readsCount_big k).mpr ⟨hc k hk, hsame k (hself.symm ▸ mem_counts.mp hk)⟩
      refine ⟨v, ?_, rfl⟩
      have hvisit := visit_reference ht hreads hn b after old
      rw [hself, written_little, t.leaves_reference v (t.leaves_supported ht v), List.append_assoc, List.length_append]
      exact hvisit

/-- A struct of a number, a string and a vector of strings. -/
abbrev numberAndNames : Ty := .struct (.cons (.scalar (.integral (.int .unsigned .w16)))
  (.cons (.scalar .string) (.cons (.vector (.scalar .string)) .nil)))

/-- The lengths of an empty string and an empty vector behind a number are exchanged between the hosts. -/
theorem prefixes_portable_struct :
    ∃ big little, (visit .big 3 numberAndNames ((7, [], [], ()), ⟨.serialize, [9], 0⟩)).state? =
        some ((7, [], [], ()), ⟨.serialize, big, 0⟩) ∧
      (visit .little 3 numberAndNames ((7, [], [], ()), ⟨.serialize, [9], 0⟩)).state? =
        some ((7, [], [], ()), ⟨.serialize, little, 0⟩) ∧
      ∀ after old, ∃ v', visit .big 3 numberAndNames (old, ⟨.deserialize, little ++ after, 1⟩) =
        .done (v', ⟨.deserialize, little ++ after, little.length⟩) ∧
          numberAndNames.counts v' = numberAndNames.counts (7, [], [], ()) := by
  have hsupported : numberAndNames.Supported := ⟨trivial, trivial, trivial, trivial⟩
  have hdepth : numberAndNames.depth ≤ 3 := by decide
  obtain ⟨big, little, hbig, hlittle, hiff⟩ :=
    prefixes_portable_iff numberAndNames hsupported (7, [], [], ()) (by decide) hdepth [9] 0
  refine ⟨big, little, hbig, hlittle, (hiff.mpr fun k hk => ?_).2 (by decide)⟩
  have hleaves : beforeNaN (numberAndNames.leaves (7, [], [], ())) =
    [.integral (.int .unsigned .w16) 7, .length 0, .length 0] := rfl
  rw [hleaves] at hk
  obtain rfl : k = 0 := by simpa using hk
  decide

/-- The string `"a"`, of length one. -/
theorem prefixes_differ :
    serialize .big 1 (.scalar .string) [97] = .done [0, 0, 0, 1, 97] ∧
    serialize .little 1 (.scalar .string) [97] = .done [1, 0, 0, 0, 97] :=
  ⟨rfl, rfl⟩

end Borsh
