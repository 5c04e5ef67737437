import Borsh.Sizes

/-!
# Exchanging buffers between hosts

The readers of a type without strings and vectors are the same on both hosts, so that a big-endian host decodes any
bytes whatsoever as a little-endian one does (`fixed_visits_agree`). With strings and vectors, what one host decodes the
other decodes alike exactly when both count every length prefix in the bytes alike (`decoded_alike_iff`).

`exchange_iff` says which values survive being written on one host and read on another, for all four pairs of hosts: it
depends on each leaf for itself (`Leaf.Exchanges`). In particular a big-endian host reads back what it wrote itself only
when it wrote no number.
-/

namespace Borsh

/-! ## Types without strings and vectors -/

theorem readIntegral_hosts (t : IntegralType) : readIntegral .big t = readIntegral .little t := by
  apply Reader.ext
  intro bs
  cases htake : (Reader.take Fault.outOfRange t.size).run bs with
  | error f =>
    unfold readIntegral
    rw [Reader.run_bind_error htake, Reader.run_bind_error htake]
  | ok q =>
    obtain ⟨bytes, rest⟩ := q
    obtain ⟨_, hlen⟩ := Reader.run_take_eq_ok.mp htake
    unfold readIntegral
    rw [Reader.run_bind_ok htake, Reader.run_bind_ok htake, ← byteswap_ofObjectBytes_big t hlen]
    cases ofObjectBytes .big t bytes <;> rfl

theorem readFloat_hosts (f : FloatType) : readFloat .big f = readFloat .little f := by
  apply Reader.ext
  intro bs
  rw [readFloat_run, readFloat_run, readIntegral_hosts]

theorem ScalarType.read_hosts : ∀ {s : ScalarType}, (∀ k ∈ s.kinds, k.isNumeric = true) → s.read .big = s.read .little
  | .integral t, _ => readIntegral_hosts t
  | .floating f, _ => readFloat_hosts f
  | .string, h => absurd (h .length List.mem_cons_self) (by decide)

mutual

/-- A type without strings and vectors is read alike on both hosts. -/
theorem Ty.read_hosts : ∀ {t : Ty}, t.Fixed → t.read .big = t.read .little
  | .scalar s, h => ScalarType.read_hosts h
  | .cArray s n, h | .stdArray (.scalar s) n, h => congrArg (Reader.vector · n) (ScalarType.read_hosts h)
  | .stdArray (.cArray _ _) _, _ | .stdArray (.stdArray _ _) _, _ | .stdArray (.vector _) _, _
  | .stdArray (.struct _) _, _ => rfl
  | .vector t, h => absurd (h .length List.mem_cons_self) (by decide)
  | .struct fields, h => Pack.read_hosts h

theorem Pack.read_hosts : ∀ {ts : Pack}, (∀ k ∈ ts.kinds, k.isNumeric = true) → ts.read .big = ts.read .little
  | .nil, _ => rfl
  | .cons t ts, h => by
    have ht : t.read .big = t.read .little := Ty.read_hosts fun k hk => h k (List.mem_append_left _ hk)
    have hts : ts.read .big = ts.read .little := Pack.read_hosts fun k hk => h k (List.mem_append_right _ hk)
    unfold Pack.read
    rw [ht, hts]

end

/-- **A type without strings and vectors is decoded alike on both hosts**, from any bytes and with any end. -/
theorem fixed_visits_agree (t : Ty) (hfixed : t.Fixed) {n : Nat} (hn : t.depth ≤ n) (b : List UInt8) (p : Nat)
    (old : t.Val) : visit .big n t (old, ⟨.deserialize, b, p⟩) = visit .little n t (old, ⟨.deserialize, b, p⟩) := by
  rw [visit_deserialize .big t n hn old _ rfl, visit_deserialize .little t n hn old _ rfl, Ty.read_hosts hfixed]

/-- A struct of a `bool` and a `uint16_t`, in the middle of a buffer. -/
theorem fixed_visits_agree_struct :
    visit .big 2 (.struct (.cons (.scalar (.integral .bool)) (.cons (.scalar (.integral (.int .unsigned .w16))) .nil)))
        ((false, 7, ()), ⟨.deserialize, [9, 1, 3, 4, 9], 1⟩) =
      .done ((true, 0x0403, ()), ⟨.deserialize, [9, 1, 3, 4, 9], 4⟩) := by
  have hdepth : (Ty.struct (.cons (.scalar (.integral .bool)) (.cons (.scalar (.integral (.int .unsigned .w16)))
    .nil))).depth ≤ 2 := by decide
  exact (fixed_visits_agree (.struct (.cons (.scalar (.integral .bool)) (.cons (.scalar (.integral
    (.int .unsigned .w16))) .nil))) (by decide) hdepth [9, 1, 3, 4, 9] 1 (false, 7, ())).trans rfl

/-! ## Strings and vectors -/

/-- The leaf and the bytes of a piece tell the piece. -/
theorem Piece.Reads.unique {host host' : Endian} {p p' : Piece} {l : Leaf} (h : p.Reads host l) (h' : p'.Reads host' l)
    (hbytes : p.bytes = p'.bytes) : p = p' := by
  cases h with
  | integral h =>
    cases h'
    exact congrArg _ hbytes
  | floating h =>
    cases h'
    exact congrArg _ hbytes
  | @length bytes h =>
    generalize hn : loopCount (lengthOfBytes host bytes) = n at h'
    cases h'
    exact congrArg _ hbytes
  | char c =>
    cases h'
    rfl

/-- The bytes of a value are cut in one way only, on whatever host. -/
theorem Layout.unique {host host' : Endian} {ls : List Leaf} : ∀ {used : List UInt8} {ps ps' : List Piece},
    Layout host used ls ps → Layout host' used ls ps' → ps = ps' := by
  induction ls with
  | nil =>
    intro used ps ps' h h'
    obtain ⟨_, hreads⟩ := h
    obtain ⟨_, hreads'⟩ := h'
    cases hreads
    cases hreads'
    rfl
  | cons l ls ih =>
    intro used ps ps' h h'
    obtain ⟨p, u, qs, rfl, rfl, hp, hqs⟩ := h.uncons
    obtain ⟨p', u', qs', hused, rfl, hp', hqs'⟩ := h'.uncons
    have hlen : p.bytes.length = p'.bytes.length := by rw [hp.length_bytes, hp'.length_bytes]
    obtain ⟨hbytes, rfl⟩ := List.append_inj hused hlen
    rw [hp.unique hp' hbytes, ih hqs hqs']

/-- The other host reads a piece as the same leaf, unless it counts a length otherwise. -/
theorem Piece.Reads.other_iff {host : Endian} (host' : Endian) {p : Piece} {l : Leaf} (h : p.Reads host l) :
    p.Reads host' l ↔ ∀ bytes, p = .length bytes →
      loopCount (lengthOfBytes host' bytes) = loopCount (lengthOfBytes host bytes) := by
  cases h with
  | integral h => exact ⟨fun _ _ hp => (by cases hp), fun _ => .integral h⟩
  | floating h => exact ⟨fun _ _ hp => (by cases hp), fun _ => .floating h⟩
  | @length bytes h =>
    constructor
    · intro h' bytes' hp
      cases hp
      generalize loopCount (lengthOfBytes host bytes) = n at h' ⊢
      cases h'
      rfl
    · intro hcounts
      rw [← hcounts bytes rfl]
      exact .length h
  | char c => exact ⟨fun _ _ hp => (by cases hp), fun _ => .char c⟩

/-- The two hosts count every length prefix among the pieces alike. -/
def CountedAlike (host host' : Endian) (ps : List Piece) : Prop :=
  ∀ bytes, .length bytes ∈ ps → loopCount (lengthOfBytes host' bytes) = loopCount (lengthOfBytes host bytes)

theorem Layout.other_iff {host : Endian} (host' : Endian) {used : List UInt8} {ls : List Leaf} {ps : List Piece}
    (h : Layout host used ls ps) : Layout host' used ls ps ↔ CountedAlike host host' ps := by
  obtain ⟨rfl, hreads⟩ := h
  induction hreads with
  | nil => exact ⟨fun _ _ hb => (List.not_mem_nil hb).elim, fun _ => layout_nil host'⟩
  | @cons p l ps ls hp _ ih =>
    constructor
    · intro h' bytes hbytes
      obtain ⟨_, hreads'⟩ := h'
      cases hreads' with
      | cons hp' hps' =>
        rcases List.mem_cons.mp hbytes with hb | hb
        · exact (hp.other_iff host').mp hp' bytes hb.symm
        · exact ih.mp ⟨rfl, hps'⟩ bytes hb
    · intro hcounts
      have hp' := (hp.other_iff host').mpr fun bytes hb => hcounts bytes (hb ▸ List.mem_cons_self)
      exact layout_cons hp' (ih.mpr fun bytes hb => hcounts bytes (List.mem_cons_of_mem _ hb))

/-- **What one host decodes, the other decodes alike** exactly when both count the length prefixes in the bytes
alike. -/
theorem decoded_alike_iff (host host' : Endian) (t : Ty) {n : Nat} (hn : t.depth ≤ n) {bs : List UInt8} {v : t.Val}
    {k : Nat} (h : deserialize host n bs t = .done (v, k)) :
    ∃ ps, (t.pieces host).run bs = .ok (ps, bs.drop k) ∧
      (deserialize host' n bs t = .done (v, k) ↔ CountedAlike host host' ps) := by
  obtain ⟨ps, hps, hlayout⟩ := deserialize_inStep (t.read_pieces host) hn h
  refine ⟨ps, hps, ?_⟩
  rw [← hlayout.other_iff host']
  constructor
  · intro h'
    obtain ⟨ps', _, hlayout'⟩ := deserialize_inStep (t.read_pieces host') hn h'
    rw [hlayout.unique hlayout']
    exact hlayout'
  · intro hlayout'
    have hle := (deserialize_size hn h).2
    refine (deserialize_eq_done hn).mpr ⟨bs.take k, bs.drop k, (List.take_append_drop k bs).symm,
      Ty.yields_of_layout hlayout', ?_⟩
    rw [List.length_take]
    omega

/-- Two empty strings behind prefixes that are zero and negative in one order, and negative in the other. -/
theorem decoded_alike_strings :
    deserialize .big 2 [0, 0, 0, 0, 0x80, 0, 0, 0x80, 9] (.cArray .string 2) = .done (⟨[[], []], rfl⟩, 8) := by
  have hdepth : (Ty.cArray .string 2).depth ≤ 2 := by decide
  have hlittle : deserialize .little 2 [0, 0, 0, 0, 0x80, 0, 0, 0x80, 9] (.cArray .string 2) =
    .done (⟨[[], []], rfl⟩, 8) := rfl
  obtain ⟨ps, hps, hiff⟩ := decoded_alike_iff .little .big (.cArray .string 2) hdepth hlittle
  have hpieces : ((Ty.cArray .string 2).pieces .little).run [0, 0, 0, 0, 0x80, 0, 0, 0x80, 9] =
    .ok ([.length [0, 0, 0, 0], .length [0x80, 0, 0, 0x80]], [9]) := rfl
  rw [hpieces] at hps
  cases hps
  refine hiff.mpr fun bytes hbytes => ?_
  simp at hbytes
  rcases hbytes with rfl | rfl
  · rfl
  · rfl

/-! ## Written on one host, read on another -/

/-- `host'` reads what `host` writes for the leaf as the leaf. -/
def Leaf.Exchanges (host host' : Endian) : Leaf → Prop
  | .integral _ _ | .floating _ _ => host = .little
  | .length k => host = host' ∨ (u32 k).reverse = u32 k
  | .char _ | .reentry => True

theorem objectBytes_length (host : Endian) (k : Nat) : objectBytes host int32 (toInt32 k) = host.order (u32 k) := by
  cases host with
  | little => rw [← u32_eq]; rfl
  | big => exact objectBytes_length_big k

/-- A length is read in the order that it was written in, or its bytes are the same from both ends. -/
theorem loopCount_exchanged {host host' : Endian} {k : Nat} (hk : k ≤ int32Max) :
    loopCount (lengthOfBytes host' (objectBytes host int32 (toInt32 k))) = k ↔
      host = host' ∨ (u32 k).reverse = u32 k := by
  by_cases heq : host = host'
  · subst heq
    exact ⟨fun _ => Or.inl rfl, fun _ => loopCount_objectBytes host hk⟩
  · have hbig : lengthOfBytes host' (objectBytes host int32 (toInt32 k)) = lengthOfBytes .big (u32 k) := by
      rw [objectBytes_length]
      cases host with
      | little =>
        cases host' with
        | little => exact absurd rfl heq
        | big => rfl
      | big =>
        cases host' with
        | little => rfl
        | big => exact absurd rfl heq
    rw [hbig]
    have hreads := readsCount_big k
    unfold Endian.ReadsCount at hreads
    rw [hreads]
    simp [hk, heq]

/-- A leaf that is exchanged is written as the bytes that are read as the leaf. -/
theorem Leaf.Exchanges.bytes_eq {host host' : Endian} : ∀ {l : Leaf}, l.Exchanges host host' →
    l.bytes host = l.input host'
  | .integral t x, h => by
    obtain rfl : host = .little := h
    exact Leaf.bytes_little (.integral t x)
  | .floating f x, h => by
    obtain rfl : host = .little := h
    exact Leaf.bytes_little (.floating f x)
  | .length k, h => by
    rw [bytes, input, objectBytes_length, objectBytes_length]
    rcases h with rfl | h
    · rfl
    · cases host <;> cases host' <;> simp [Endian.order, h]
  | .char c, _ => by simp [bytes, input]
  | .reentry, _ => rfl

/-- A leaf takes at least its size, and more than that when it is a number on a big-endian host. -/
theorem Leaf.size_le_bytes (host : Endian) : ∀ l : Leaf, l.size ≤ (l.bytes host).length ∧
    ((l.bytes host).length = l.size → host = .little ∨ l.kind.isNumeric = false)
  | .integral t x => by
    obtain ⟨hlittle, hbig, hpos⟩ := length_bytes_numeric (.integral t x) rfl
    cases host with
    | little => exact ⟨by omega, fun _ => Or.inl rfl⟩
    | big => exact ⟨by omega, fun h => by omega⟩
  | .floating f x => by
    obtain ⟨hlittle, hbig, hpos⟩ := length_bytes_numeric (.floating f x) rfl
    cases host with
    | little => exact ⟨by omega, fun _ => Or.inl rfl⟩
    | big => exact ⟨by omega, fun h => by omega⟩
  | .length k => by simp [bytes, size, kind, LeafKind.isNumeric]
  | .char _ => by simp [bytes, size, kind, LeafKind.isNumeric]
  | .reentry => by simp [bytes, size, kind, LeafKind.isNumeric]

theorem totalSize_le_written (host : Endian) (ls : List Leaf) : totalSize ls ≤ (written host ls).length := by
  induction ls with
  | nil => exact Nat.le_refl 0
  | cons l ls ih =>
    have hl := (l.size_le_bytes host).1
    rw [totalSize_cons, written_cons, List.length_append]
    omega

/-- Where the bytes written for some leaves are all read as these leaves, those of each leaf are read as the leaf. -/
theorem layout_written {host host' : Endian} {ls : List Leaf} : ∀ {ps : List Piece},
    Layout host' (written host ls) ls ps →
      ∀ l ∈ ls, (l.bytes host).length = l.size ∧ ∃ p : Piece, p.bytes = l.bytes host ∧ p.Reads host' l := by
  induction ls with
  | nil => exact fun _ l hl => (List.not_mem_nil hl).elim
  | cons l ls ih =>
    intro ps h k hk
    have hlen := h.length
    change (written host (l :: ls)).length = totalSize (l :: ls) at hlen
    rw [written_cons, List.length_append, totalSize_cons] at hlen
    -- nothing is written beyond the sizes, so not at any leaf
    have hl := (l.size_le_bytes host).1
    have hls := totalSize_le_written host ls
    have hsize : (l.bytes host).length = l.size := by omega
    obtain ⟨p, u, qs, hsplit, rfl, hp, hqs⟩ := h.uncons
    have hp_len : (l.bytes host).length = p.bytes.length := by rw [hsize, hp.length_bytes]
    obtain ⟨hbytes, rfl⟩ := List.append_inj hsplit hp_len
    rcases List.mem_cons.mp hk with rfl | hk
    · exact ⟨hsize, p, hbytes.symm, hp⟩
    · exact ih hqs k hk

theorem exchanges_of_reads {host host' : Endian} {l : Leaf} (hc : ∀ k, l = .length k → k ≤ int32Max)
    (hlen : (l.bytes host).length = l.size) {p : Piece} (hbytes : p.bytes = l.bytes host) (hp : p.Reads host' l) :
    l.Exchanges host host' := by
  cases l with
  | integral t x =>
    rcases ((Leaf.integral t x).size_le_bytes host).2 hlen with h | h
    · exact h
    · cases h
  | floating f x =>
    rcases ((Leaf.floating f x).size_le_bytes host).2 hlen with h | h
    · exact h
    · cases h
  | length k =>
    refine (loopCount_exchanged (hc k rfl)).mp ?_
    have hbytes' : p.bytes = objectBytes host int32 (toInt32 k) := hbytes
    rw [← hbytes']
    cases hp
    rfl
  | char c => trivial
  | reentry => trivial

/-- **What is written on one host and read on another**, or on the same: `host'` returns the value that `host` wrote,
with the cursor behind it, exactly when it reads each leaf as it was written. -/
theorem exchange_iff (host host' : Endian) (t : Ty) (ht : t.Supported) (v : t.Val) (hv : t.NaNFree v)
    (hc : ∀ c ∈ t.counts v, c ≤ int32Max) {n : Nat} (hn : t.depth ≤ n) :
    ∃ bytes, serialize host n t v = .done bytes ∧
      (deserialize host' n bytes t = .done (v, bytes.length) ↔ ∀ l ∈ t.leaves v, l.Exchanges host host') := by
  refine ⟨t.encoding host v, (serialize_eq_done ht hn).mpr ⟨hv, rfl⟩, ?_⟩
  constructor
  · intro h l hl
    obtain ⟨ps, _, hlayout⟩ := deserialize_inStep (t.read_pieces host') hn h
    rw [List.take_length] at hlayout
    obtain ⟨hlen, p, hbytes, hp⟩ := layout_written hlayout l hl
    exact exchanges_of_reads (fun k hk => hc k (mem_counts.mpr (hk ▸ hl))) hlen hbytes hp
  · intro hex
    have hinput : t.encoding host v = (t.leaves v).flatMap (Leaf.input host') :=
      List.flatMap_congr fun l hl => (hex l hl).bytes_eq
    have hdecode := deserialize_input host' ht hn hc []
    obtain ⟨ps, hlayout⟩ := exists_layout host' (t.leaves_supported ht v) fun k hk => hc k (mem_counts.mpr hk)
    rw [List.append_nil] at hdecode
    rw [hinput, hlayout.length]
    exact hdecode

/-- A big-endian host reads its own strings back, but not its own integers. -/
theorem exchange_iff_big :
    (∃ bytes, serialize .big 1 (.scalar .string) [104, 105] = .done bytes ∧
      deserialize .big 1 bytes (.scalar .string) = .done ([104, 105], bytes.length)) ∧
    ∃ bytes, serialize .big 1 (.scalar (.integral (.int .unsigned .w8))) 5 = .done bytes ∧
      deserialize .big 1 bytes (.scalar (.integral (.int .unsigned .w8))) ≠ .done (5, bytes.length) := by
  constructor
  · have hdepth : (Ty.scalar .string).depth ≤ 1 := by decide
    obtain ⟨bytes, hbytes, hiff⟩ :=
      exchange_iff .big .big (.scalar .string) trivial [104, 105] (by decide) (by decide) hdepth
    refine ⟨bytes, hbytes, hiff.mpr fun l hl => ?_⟩
    cases l with
    | length k => exact Or.inl rfl
    | char c => trivial
    | _ => simp [Ty.leaves, ScalarType.leaves] at hl
  · have hdepth : (Ty.scalar (.integral (.int .unsigned .w8))).depth ≤ 1 := by decide
    obtain ⟨bytes, hbytes, hiff⟩ := exchange_iff .big .big (.scalar (.integral (.int .unsigned .w8))) trivial 5
      (by decide) (by decide) hdepth
    refine ⟨bytes, hbytes, fun h => ?_⟩
    cases hiff.mp h (.integral (.int .unsigned .w8) 5) List.mem_cons_self

end Borsh
