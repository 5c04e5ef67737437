import Borsh.Exact

/-!
# Sizes

`Ty.minSize` is the least number of bytes that a value of a type takes, and the number that every value takes when the
type is built without strings and vectors. If it also has no `bool`, any bytes of that number are a value
(`fixed_decoding_total`).

The decoder trusts a length prefix before it sees the elements. In a `Dense` type the elements of a vector are never
empty, so that a decoded value has no more characters and elements than bytes were taken for it. In any other type a
buffer of one size makes the decoder append any number of elements up to `INT32_MAX` (`amplification`).
-/

namespace Borsh

def ScalarType.minSize : ScalarType → Nat
  | .integral t => t.size
  | .floating f => f.size
  | .string => int32.size

mutual

/-- The least size of a value of type `t` in a buffer: that of a value whose strings and vectors are empty. -/
def Ty.minSize : Ty → Nat
  | .scalar s => s.minSize
  | .cArray s n => n * s.minSize
  | .stdArray t n => n * t.minSize
  | .vector _ => int32.size
  | .struct fields => fields.minSize

def Pack.minSize : Pack → Nat
  | .nil => 0
  | .cons t ts => t.minSize + ts.minSize

end

mutual

/-- The elements of every vector in `t` take at least one byte each. -/
def Ty.Dense : Ty → Prop
  | .scalar _ | .cArray _ _ => True
  | .stdArray t _ => t.Dense
  | .vector t => t.Dense ∧ 0 < t.minSize
  | .struct fields => fields.Dense

def Pack.Dense : Pack → Prop
  | .nil => True
  | .cons t ts => t.Dense ∧ ts.Dense

end

/-- `t` is built without `bool`. -/
def Ty.BoolFree (t : Ty) : Prop := ∀ k ∈ t.kinds, k ≠ .integral .bool

instance (t : Ty) : Decidable t.BoolFree := inferInstanceAs (Decidable (∀ k ∈ _, _))

/-- The size of a value with these leaves in a buffer. -/
def totalSize (ls : List Leaf) : Nat := (ls.map Leaf.size).sum

/-- The number of characters and elements in a value with these leaves. -/
def totalCount (ls : List Leaf) : Nat := (ls.filterMap Leaf.count?).sum

@[simp] theorem totalSize_nil : totalSize [] = 0 := rfl

@[simp] theorem totalSize_cons (l : Leaf) (ls : List Leaf) : totalSize (l :: ls) = l.size + totalSize ls := by
  simp [totalSize]

@[simp] theorem totalSize_append (ls ls' : List Leaf) : totalSize (ls ++ ls') = totalSize ls + totalSize ls' := by
  simp [totalSize]

@[simp] theorem totalCount_nil : totalCount [] = 0 := rfl

@[simp] theorem totalCount_append (ls ls' : List Leaf) : totalCount (ls ++ ls') = totalCount ls + totalCount ls' := by
  simp [totalCount]

@[simp] theorem totalCount_length (n : Nat) (ls : List Leaf) : totalCount (.length n :: ls) = n + totalCount ls := by
  simp [totalCount, Leaf.count?]

theorem totalSize_chars (cs : List UInt8) : totalSize (cs.map .char) = cs.length := by
  induction cs with
  | nil => rfl
  | cons c cs ih =>
    simp only [List.map_cons, totalSize_cons, ih, Leaf.size, List.length_cons]
    omega

theorem totalCount_chars (cs : List UInt8) : totalCount (cs.map .char) = 0 := by
  have h : (cs.map Leaf.char).filterMap Leaf.count? = [] := by
    rw [List.filterMap_eq_nil_iff]
    intro l hl
    obtain ⟨c, _, rfl⟩ := List.mem_map.mp hl
    rfl
  rw [totalCount, h]
  rfl

/-! ## Types without strings and vectors -/

theorem totalSize_flatMap {α : Type} {leaves : α → List Leaf} {m : Nat} (h : ∀ x, totalSize (leaves x) = m)
    (xs : List α) : totalSize (xs.flatMap leaves) = xs.length * m := by
  induction xs with
  | nil => simp
  | cons x xs ih =>
    rw [List.flatMap_cons, totalSize_append, h x, ih, List.length_cons, Nat.succ_mul]
    omega

theorem ScalarType.size_fixed : ∀ {s : ScalarType}, (∀ k ∈ s.kinds, k.isNumeric = true) → ∀ x : s.Val,
    totalSize (s.leaves x) = s.minSize
  | .integral _, _, _ | .floating _, _, _ => by simp [leaves, Leaf.size, minSize]
  | .string, h, _ => absurd (h .length List.mem_cons_self) (by decide)

mutual

/-- All values of a type without strings and vectors are of one size. -/
theorem Ty.size_fixed : ∀ {t : Ty}, t.Supported → t.Fixed → ∀ v : t.Val, totalSize (t.leaves v) = t.minSize
  | .scalar s, _, h, x => ScalarType.size_fixed h x
  | .cArray s n, _, h, xs => by
    have hitems := totalSize_flatMap (ScalarType.size_fixed h) xs.toList
    rwa [xs.toList_length] at hitems
  | .stdArray (.scalar s) n, _, h, xs => by
    have hitems := totalSize_flatMap (ScalarType.size_fixed h) xs.toList
    rwa [xs.toList_length] at hitems
  | .vector t, _, h, _ => absurd (h .length List.mem_cons_self) (by decide)
  | .struct fields, hs, h, xs => Pack.size_fixed hs h xs

theorem Pack.size_fixed : ∀ {ts : Pack}, ts.Supported → (∀ k ∈ ts.kinds, k.isNumeric = true) → ∀ vs : ts.Val,
    totalSize (ts.leaves vs) = ts.minSize
  | .nil, _, _, _ => rfl
  | .cons t ts, hs, h, (x, xs) => by
    have hx := Ty.size_fixed hs.1 (fun k hk => h k (List.mem_append_left _ hk)) x
    have hxs := Pack.size_fixed hs.2 (fun k hk => h k (List.mem_append_right _ hk)) xs
    simp only [Pack.leaves, totalSize_append, Pack.minSize, hx, hxs]

end

/-- Any bytes of the size of a number are its reference encoding. -/
theorem exists_reference_int (sign : Signedness) (w : Width) {bs : List UInt8} (h : bs.length = w.bytes) :
    ∃ x, IntegralType.reference (.int sign w) x = bs := by
  refine ⟨LittleEndian.toBitVec w.bytes bs, ?_⟩
  rw [reference_integral]
  exact objectBytes_of_ofObjectBytes h rfl

theorem exists_reference_items {α : Type} {reference : α → List UInt8} {m : Nat}
    (h : ∀ bs : List UInt8, bs.length = m → ∃ x, reference x = bs) : ∀ (n : Nat) (bs : List UInt8),
      bs.length = n * m → ∃ xs : List.Vector α n, xs.toList.flatMap reference = bs
  | 0, bs, hlen => by
    have hnil : bs = [] := List.eq_nil_of_length_eq_zero (by omega)
    exact ⟨List.Vector.nil, hnil.symm⟩
  | n + 1, bs, hlen => by
    rw [Nat.succ_mul] at hlen
    obtain ⟨x, hx⟩ := h (bs.take m) (by rw [List.length_take]; omega)
    obtain ⟨xs, hxs⟩ := exists_reference_items h n (bs.drop m) (by rw [List.length_drop]; omega)
    refine ⟨List.Vector.cons x xs, ?_⟩
    rw [List.Vector.toList_cons, List.flatMap_cons, hx, hxs, List.take_append_drop]

theorem ScalarType.exists_reference : ∀ {s : ScalarType}, (∀ k ∈ s.kinds, k.isNumeric = true) →
    (∀ k ∈ s.kinds, k ≠ .integral .bool) → ∀ bs : List UInt8, bs.length = s.minSize → ∃ x, s.reference x = bs
  | .integral (.int sign w), _, _, _, hlen => exists_reference_int sign w hlen
  | .integral .bool, _, h, _, _ => absurd rfl (h _ List.mem_cons_self)
  | .floating f, _, _, bs, hlen => by
    obtain ⟨x, hx⟩ := exists_reference_int .signed f.width hlen
    refine ⟨intToFloat x, ?_⟩
    rw [← hx, reference_integral]
    rfl
  | .string, h, _, _, _ => absurd (h .length List.mem_cons_self) (by decide)

mutual

/-- Any bytes of the right number are the reference encoding of a value of a type without strings, vectors and
`bool`s. -/
theorem Ty.exists_reference : ∀ {t : Ty}, t.Supported → t.Fixed → t.BoolFree → ∀ bs : List UInt8,
    bs.length = t.minSize → ∃ v, t.reference v = bs
  | .scalar s, _, h, hb, bs, hlen => s.exists_reference h hb bs hlen
  | .cArray s n, _, h, hb, bs, hlen => exists_reference_items (ScalarType.exists_reference h hb) n bs hlen
  | .stdArray (.scalar s) n, _, h, hb, bs, hlen => exists_reference_items (ScalarType.exists_reference h hb) n bs hlen
  | .vector t, _, h, _, _, _ => absurd (h .length List.mem_cons_self) (by decide)
  | .struct fields, hs, h, hb, bs, hlen => Pack.exists_reference hs h hb bs hlen

theorem Pack.exists_reference : ∀ {ts : Pack}, ts.Supported → (∀ k ∈ ts.kinds, k.isNumeric = true) →
    (∀ k ∈ ts.kinds, k ≠ .integral .bool) → ∀ bs : List UInt8, bs.length = ts.minSize → ∃ vs, ts.reference vs = bs
  | .nil, _, _, _, bs, hlen => ⟨(), (List.eq_nil_of_length_eq_zero hlen).symm⟩
  | .cons t ts, hs, h, hb, bs, hlen => by
    have hlen' : bs.length = t.minSize + ts.minSize := hlen
    obtain ⟨x, hx⟩ := Ty.exists_reference hs.1 (fun k hk => h k (List.mem_append_left _ hk))
      (fun k hk => hb k (List.mem_append_left _ hk)) (bs.take t.minSize) (by rw [List.length_take]; omega)
    obtain ⟨xs, hxs⟩ := Pack.exists_reference hs.2 (fun k hk => h k (List.mem_append_right _ hk))
      (fun k hk => hb k (List.mem_append_right _ hk)) (bs.drop t.minSize) (by rw [List.length_drop]; omega)
    refine ⟨(x, xs), ?_⟩
    rw [Pack.reference, hx, hxs, List.take_append_drop]

end

/-- The reference encoding of a value of a type without strings and vectors is decoded on either host. -/
theorem deserialize_fixed (host : Endian) {t : Ty} (ht : t.Supported) (hfixed : t.Fixed) {n : Nat} (hn : t.depth ≤ n)
    (v : t.Val) (after : List UInt8) :
    deserialize host n (t.reference v ++ after) t = .done (v, t.minSize) := by
  have hlen : (t.reference v).length = t.minSize := by
    rw [← encoding_little ht v, Ty.encoding, (length_written_numeric (hfixed.numeric v)).1]
    exact Ty.size_fixed ht hfixed v
  rw [← hlen]
  refine deserialize_reference ht (fun k hk => ?_) hn after
  rw [hfixed.counts_eq v] at hk
  cases hk

/-- **A type without strings, vectors and `bool`s can be read from any bytes**: a buffer that is long enough starts with
the reference encoding of a value, and both hosts return it; from a shorter one, both read outside of it. -/
theorem fixed_decoding_total (t : Ty) (ht : t.Supported) (hfixed : t.Fixed) (hbool : t.BoolFree) {n : Nat}
    (hn : t.depth ≤ n) (bs : List UInt8) :
    (t.minSize ≤ bs.length → ∃ v, t.reference v = bs.take t.minSize ∧
      ∀ host, deserialize host n bs t = .done (v, t.minSize)) ∧
    (bs.length < t.minSize → ∀ host, deserialize host n bs t = .fault .outOfRange) := by
  constructor
  · intro hle
    obtain ⟨v, hv⟩ := Ty.exists_reference ht hfixed hbool (bs.take t.minSize) (by rw [List.length_take]; omega)
    refine ⟨v, hv, fun host => ?_⟩
    have hdecode := deserialize_fixed host ht hfixed hn v (bs.drop t.minSize)
    rwa [hv, List.take_append_drop] at hdecode
  · intro hlt host
    -- some bytes behind the end of the buffer complete it to a value
    obtain ⟨more, hmore⟩ : ∃ more : List UInt8, (bs ++ more).length = t.minSize :=
      ⟨List.replicate (t.minSize - bs.length) 0, by simp; omega⟩
    obtain ⟨v, hv⟩ := Ty.exists_reference ht hfixed hbool (bs ++ more) hmore
    have hdecode := deserialize_fixed host ht hfixed hn v []
    rw [List.append_nil, hv] at hdecode
    obtain ⟨used, rest, hsplit, hy, hk⟩ := (deserialize_eq_done hn).mp hdecode
    refine (deserialize_eq_fault hn).mpr ((Reader.short_iff (t.read_streaming host ht) bs).mpr ?_)
    refine ⟨more, v, rest, by rw [hsplit]; exact hy rest, ?_⟩
    have hlen := congrArg List.length hsplit
    rw [List.length_append, List.length_append] at hlen
    rw [List.length_append] at hmore
    omega

/-- A struct of a `double` and two `int16_t`, which takes twelve bytes. -/
theorem fixed_decoding_total_struct :
    (∃ v, ∀ host, deserialize host 3 [1, 2, 3, 4, 5, 6, 7, 8, 9, 10, 11, 12, 13] (.struct (.cons (.scalar
      (.floating .double)) (.cons (.cArray (.integral (.int .signed .w16)) 2) .nil))) = .done (v, 12)) ∧
    ∀ host, deserialize host 3 [1, 2, 3, 4, 5, 6, 7, 8, 9, 10, 11] (.struct (.cons (.scalar (.floating .double))
      (.cons (.cArray (.integral (.int .signed .w16)) 2) .nil))) = .fault .outOfRange := by
  have hdepth : (Ty.struct (.cons (.scalar (.floating .double)) (.cons (.cArray (.integral (.int .signed .w16)) 2)
    .nil))).depth ≤ 3 := by decide
  have hrule := fixed_decoding_total (.struct (.cons (.scalar (.floating .double)) (.cons (.cArray (.integral
    (.int .signed .w16)) 2) .nil))) ⟨trivial, trivial, trivial⟩ (by decide) (by decide) hdepth
  obtain ⟨v, _, hv⟩ := (hrule [1, 2, 3, 4, 5, 6, 7, 8, 9, 10, 11, 12, 13]).1 (by decide)
  exact ⟨⟨v, hv⟩, (hrule [1, 2, 3, 4, 5, 6, 7, 8, 9, 10, 11]).2 (by decide)⟩

/-! ## Dense types -/

theorem totalCount_flatMap {α : Type} {leaves : α → List Leaf} {m : Nat}
    (h : ∀ x, totalCount (leaves x) + m ≤ totalSize (leaves x)) (xs : List α) :
    totalCount (xs.flatMap leaves) + xs.length * m ≤ totalSize (xs.flatMap leaves) := by
  induction xs with
  | nil => simp
  | cons x xs ih =>
    have hx := h x
    rw [List.flatMap_cons, totalCount_append, totalSize_append, List.length_cons, Nat.succ_mul]
    omega

theorem ScalarType.count_le : ∀ (s : ScalarType) (x : s.Val),
    totalCount (s.leaves x) + s.minSize ≤ totalSize (s.leaves x)
  | .integral _, _ | .floating _, _ => Nat.le_of_eq (Nat.zero_add _)
  | .string, cs => by
    simp only [leaves, totalCount_length, totalCount_chars, totalSize_cons, totalSize_chars, Leaf.size, minSize]
    omega

theorem ScalarType.vector_count_le (s : ScalarType) {n : Nat} (xs : List.Vector s.Val n) :
    totalCount (xs.toList.flatMap s.leaves) + n * s.minSize ≤ totalSize (xs.toList.flatMap s.leaves) := by
  have h := totalCount_flatMap s.count_le xs.toList
  rwa [xs.toList_length] at h

mutual

/-- In a dense type, the bytes of a value pay for its least size and for every character and element in it. -/
theorem Ty.count_le : ∀ {t : Ty}, t.Supported → t.Dense → ∀ v : t.Val,
    totalCount (t.leaves v) + t.minSize ≤ totalSize (t.leaves v)
  | .scalar s, _, _, x => s.count_le x
  | .cArray s n, _, _, xs | .stdArray (.scalar s) n, _, _, xs => s.vector_count_le xs
  | .vector t, hs, h, xs => by
    have ht : t.Supported := hs
    have hitems := totalCount_flatMap (Ty.count_le ht h.1) xs
    -- an element takes a byte at least, which pays for the element
    have hpay : xs.length * 1 ≤ xs.length * t.minSize := Nat.mul_le_mul_left xs.length h.2
    simp only [Ty.leaves, totalCount_length, totalSize_cons, Leaf.size, Ty.minSize]
    omega
  | .struct fields, hs, h, xs => Pack.count_le hs h xs

theorem Pack.count_le : ∀ {ts : Pack}, ts.Supported → ts.Dense → ∀ vs : ts.Val,
    totalCount (ts.leaves vs) + ts.minSize ≤ totalSize (ts.leaves vs)
  | .nil, _, _, _ => Nat.le_refl 0
  | .cons t ts, hs, h, (x, xs) => by
    have hx := Ty.count_le hs.1 h.1 x
    have hxs := Pack.count_le hs.2 h.2 xs
    simp only [Pack.leaves, totalCount_append, totalSize_append, Pack.minSize]
    omega

end

/-! ## Other types -/

/-- A fresh object: it has the least size, and all strings and vectors in it are empty. -/
structure Fresh (ls : List Leaf) (size : Nat) : Prop where
  size_eq : totalSize ls = size
  empty : ∀ k, .length k ∈ ls → k = 0

theorem fresh_append {ls ls' : List Leaf} {m m' : Nat} (h : Fresh ls m) (h' : Fresh ls' m') :
    Fresh (ls ++ ls') (m + m') where
  size_eq := by rw [totalSize_append, h.size_eq, h'.size_eq]
  empty k hk := by
    rcases List.mem_append.mp hk with hk | hk
    · exact h.empty k hk
    · exact h'.empty k hk

theorem fresh_replicate {α : Type} {leaves : α → List Leaf} {x : α} {m : Nat} (h : Fresh (leaves x) m) (n : Nat) :
    Fresh ((List.replicate n x).flatMap leaves) (n * m) := by
  induction n with
  | zero => exact ⟨by simp, by simp⟩
  | succ n ih =>
    rw [List.replicate_succ, List.flatMap_cons, Nat.succ_mul, Nat.add_comm]
    exact fresh_append h ih

theorem ScalarType.initial_fresh : ∀ s : ScalarType, Fresh (s.leaves s.initial) s.minSize
  | .integral _ | .floating _ => ⟨by simp [leaves, Leaf.size, minSize], by simp [leaves]⟩
  | .string => ⟨rfl, by simp [leaves, initial]⟩

mutual

theorem Ty.initial_fresh : ∀ {t : Ty}, t.Supported → Fresh (t.leaves t.initial) t.minSize
  | .scalar s, _ => s.initial_fresh
  | .cArray s n, _ | .stdArray (.scalar s) n, _ => fresh_replicate s.initial_fresh n
  | .vector t, _ => ⟨rfl, by simp [Ty.leaves, Ty.initial]⟩
  | .struct fields, hs => Pack.initial_fresh hs

theorem Pack.initial_fresh : ∀ {ts : Pack}, ts.Supported → Fresh (ts.leaves ts.initial) ts.minSize
  | .nil, _ => ⟨rfl, by simp [Pack.leaves]⟩
  | .cons t ts, hs => fresh_append (Ty.initial_fresh hs.1) (Pack.initial_fresh hs.2)

end

/-- A value of size `size` has a string or vector with `c` items, and none with more than `INT32_MAX`. -/
structure Bloated (ls : List Leaf) (size c : Nat) : Prop where
  size_eq : totalSize ls = size
  mem : .length c ∈ ls
  le : ∀ k, .length k ∈ ls → k ≤ int32Max

theorem Bloated.append_left {ls ls' : List Leaf} {m m' c : Nat} (h : Bloated ls m c) (h' : Fresh ls' m') :
    Bloated (ls ++ ls') (m + m') c where
  size_eq := by rw [totalSize_append, h.size_eq, h'.size_eq]
  mem := List.mem_append_left _ h.mem
  le k hk := by
    rcases List.mem_append.mp hk with hk | hk
    · exact h.le k hk
    · rw [h'.empty k hk]
      exact Nat.zero_le _

theorem Bloated.append_right {ls ls' : List Leaf} {m m' c : Nat} (h : Fresh ls m) (h' : Bloated ls' m' c) :
    Bloated (ls ++ ls') (m + m') c where
  size_eq := by rw [totalSize_append, h.size_eq, h'.size_eq]
  mem := List.mem_append_right _ h'.mem
  le k hk := by
    rcases List.mem_append.mp hk with hk | hk
    · rw [h.empty k hk]
      exact Nat.zero_le _
    · exact h'.le k hk

mutual

/-- A type that is not dense has values of one size with a vector of any length. -/
theorem Ty.exists_bloated : ∀ {t : Ty}, t.Supported → ¬ t.Dense →
    ∃ size, ∀ c, c ≤ int32Max → ∃ v, Bloated (t.leaves v) size c
  | .scalar _, _, h | .cArray _ _, _, h | .stdArray (.scalar _) _, _, h => absurd trivial h
  | .vector t, hs, h => by
    have ht : t.Supported := hs
    by_cases hdense : t.Dense
    · -- fresh elements, which take no bytes
      have hzero : t.minSize = 0 := Nat.eq_zero_of_not_pos fun hpos => h ⟨hdense, hpos⟩
      refine ⟨int32.size, fun c hc => ⟨List.replicate c t.initial, ?_⟩⟩
      have hfresh := fresh_replicate (Ty.initial_fresh ht) c
      rw [hzero, Nat.mul_zero] at hfresh
      refine ⟨?_, ?_, fun k hk => ?_⟩
      · simp [Ty.leaves, Leaf.size, hfresh.size_eq]
      · simp [Ty.leaves]
      · rcases List.mem_cons.mp hk with hk | hk
        · cases hk
          rw [List.length_replicate]
          exact hc
        · rw [hfresh.empty k hk]
          exact Nat.zero_le _
    · obtain ⟨size, hsize⟩ := Ty.exists_bloated ht hdense
      refine ⟨int32.size + size, fun c hc => ?_⟩
      obtain ⟨v, hv⟩ := hsize c hc
      have hleaves : (Ty.vector t).leaves [v] = .length 1 :: t.leaves v := by simp [Ty.leaves]
      refine ⟨[v], ?_, ?_, fun k hk => ?_⟩
      · rw [hleaves, totalSize_cons, hv.size_eq, Leaf.size]
      · rw [hleaves]
        exact List.mem_cons_of_mem _ hv.mem
      · rw [hleaves] at hk
        rcases List.mem_cons.mp hk with hk | hk
        · cases hk
          decide
        · exact hv.le k hk
  | .struct fields, hs, h => by
    have hfields : fields.Supported := hs
    exact Pack.exists_bloated hfields h

theorem Pack.exists_bloated : ∀ {ts : Pack}, ts.Supported → ¬ ts.Dense →
    ∃ size, ∀ c, c ≤ int32Max → ∃ vs, Bloated (ts.leaves vs) size c
  | .nil, _, h => absurd trivial h
  | .cons t ts, hs, h => by
    by_cases hdense : t.Dense
    · have hrest : ¬ ts.Dense := fun hts => h ⟨hdense, hts⟩
      obtain ⟨size, hsize⟩ := Pack.exists_bloated hs.2 hrest
      refine ⟨t.minSize + size, fun c hc => ?_⟩
      obtain ⟨vs, hvs⟩ := hsize c hc
      exact ⟨(t.initial, vs), .append_right (Ty.initial_fresh hs.1) hvs⟩
    · obtain ⟨size, hsize⟩ := Ty.exists_bloated hs.1 hdense
      refine ⟨size + ts.minSize, fun c hc => ?_⟩
      obtain ⟨v, hv⟩ := hsize c hc
      exact ⟨(v, ts.initial), hv.append_left (Pack.initial_fresh hs.2)⟩

end

/-- **What a length prefix can cost.** In a dense type, a decoded value has no more characters and elements than bytes
were taken for them. In any other type, some number of bytes is enough to make the decoder append any number of elements
up to `INT32_MAX` to one vector. -/
theorem amplification (host : Endian) (t : Ty) (ht : t.Supported) {n : Nat} (hn : t.depth ≤ n) :
    (t.Dense → ∀ bs v k, deserialize host n bs t = .done (v, k) →
      (t.counts v).sum + t.minSize ≤ k ∧ k ≤ bs.length) ∧
    (¬ t.Dense → ∃ size, ∀ c, c ≤ int32Max → ∃ bs v, bs.length = size ∧
      deserialize host n bs t = .done (v, size) ∧ c ∈ t.counts v) := by
  constructor
  · intro hdense bs v k h
    obtain ⟨hk, hle⟩ := deserialize_size hn h
    refine ⟨?_, hle⟩
    rw [hk]
    exact Ty.count_le ht hdense v
  · intro hdense
    obtain ⟨size, hsize⟩ := Ty.exists_bloated ht hdense
    refine ⟨size, fun c hc => ?_⟩
    obtain ⟨v, hv⟩ := hsize c hc
    have hdecode := deserialize_input host ht hn (fun k hk => hv.le k (mem_counts.mp hk)) []
    have hk : ((t.leaves v).map Leaf.size).sum = size := hv.size_eq
    rw [hk] at hdecode
    refine ⟨_, v, ?_, hdecode, mem_counts.mpr hv.mem⟩
    obtain ⟨ps, hlayout⟩ := exists_layout host (t.leaves_supported ht v) hv.le
    rw [List.append_nil, hlayout.length, hk]

/-- Vectors of strings are dense, vectors of a struct without fields are not. -/
theorem amplification_vectors :
    (∀ bs v k, deserialize .little 2 bs (.vector (.scalar .string)) = .done (v, k) →
      ((Ty.vector (.scalar .string)).counts v).sum + 4 ≤ k ∧ k ≤ bs.length) ∧
    ∃ size, ∀ c, c ≤ int32Max → ∃ bs v, bs.length = size ∧
      deserialize .little 2 bs (.vector (.struct .nil)) = .done (v, size) ∧
        c ∈ (Ty.vector (.struct .nil)).counts v := by
  have hstrings : (Ty.vector (.scalar .string)).depth ≤ 2 := by decide
  have hstructs : (Ty.vector (.struct .nil)).depth ≤ 2 := by decide
  refine ⟨(amplification .little (.vector (.scalar .string)) trivial hstrings).1 ⟨trivial, by decide⟩, ?_⟩
  exact (amplification .little (.vector (.struct .nil)) trivial hstructs).2 fun h => absurd h.2 (by decide)

end Borsh
