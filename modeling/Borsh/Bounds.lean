import Borsh.Cut

/-!
# What a decoder reads

A decoding that returns is decided by the bytes it consumes (`decoding_local`): not by where they stand, what follows
them, or what the destination held before.

There is no check against the end of the buffer. Where all `bool`s are `0` or `1`, a byte behind the end is read exactly
when the buffer ends inside the layout of a value, and no exception reports it (`reads_outside_iff`). The readers of the
supported types are `Streaming`: an out-of-range read is what an input that ends too early leads to, and nothing else
does.
-/

namespace Borsh

/-- **Decoding depends only on the bytes it consumes.** -/
theorem decoding_local (host : Endian) (t : Ty) {n : Nat} (hn : t.depth ≤ n) {b : List UInt8} {p : Nat}
    {old v : t.Val} {s : Serializer} (h : visit host n t (old, ⟨.deserialize, b, p⟩) = .done (v, s)) :
    ∃ k, s = ⟨.deserialize, b, p + k⟩ ∧ (p ≤ b.length → p + k ≤ b.length) ∧
      ∀ n', t.depth ≤ n' → ∀ (b' : List UInt8) (q : Nat) (old' : t.Val), (b'.drop q).take k = (b.drop p).take k →
        visit host n' t (old', ⟨.deserialize, b', q⟩) = .done (v, ⟨.deserialize, b', q + k⟩) := by
  rw [visit_deserialize host t n hn old _ rfl, Outcome.ofExcept_eq_done] at h
  obtain ⟨⟨a, p'⟩, hrun, hs⟩ := h
  obtain ⟨rfl, rfl⟩ := Prod.mk.inj hs
  obtain ⟨used, rest, hused, hy, rfl⟩ := Reader.runAt_eq_ok.mp hrun
  have hused' : b.drop p = used ++ rest := hused
  refine ⟨used.length, rfl, fun hp => ?_, fun n' hn' b' q old' hq => ?_⟩
  · have hlen := congrArg List.length hused'
    rw [List.length_drop, List.length_append] at hlen
    omega
  · rw [hused', List.take_left] at hq
    have hsplit : b'.drop q = used ++ (b'.drop q).drop used.length := by
      have htd := List.take_append_drop used.length (b'.drop q)
      rw [hq] at htd
      exact htd.symm
    rw [visit_deserialize host t n' hn' old' _ rfl]
    have hrun' : (t.read host).runAt b' q = .ok (a, q + used.length) :=
      Reader.runAt_eq_ok.mpr ⟨used, _, hsplit, hy, rfl⟩
    simp only [hrun']
    rfl

/-- A vector of one byte, at the start of one buffer and inside another. -/
theorem decoding_local_vector :
    visit .little 2 (.vector (.scalar (.integral (.int .unsigned .w8))))
        ([9, 9], ⟨.deserialize, [3, 1, 0, 0, 0, 7, 4], 1⟩) =
      .done ([7], ⟨.deserialize, [3, 1, 0, 0, 0, 7, 4], 6⟩) := by
  have hfirst : visit .little 2 (.vector (.scalar (.integral (.int .unsigned .w8))))
      ([], ⟨.deserialize, [1, 0, 0, 0, 7], 0⟩) = .done ([7], ⟨.deserialize, [1, 0, 0, 0, 7], 5⟩) := rfl
  obtain ⟨k, hk, _, hlocal⟩ := decoding_local .little _ (by decide) hfirst
  injection hk with _ _ hk
  have h := hlocal 2 (by decide) [3, 1, 0, 0, 0, 7, 4] 1 [9, 9]
  rw [Nat.zero_add] at hk
  subst hk
  exact h rfl

/-! ## Streaming readers -/

theorem readIntegral_streaming (host : Endian) : ∀ t : IntegralType, (readIntegral host t).Streaming .outOfRange
  | .int _ _ => Reader.Streaming.bind (Reader.streaming_take _ _) fun _ => Reader.streaming_pure _ _
  | .bool => by
    refine Reader.Streaming.check (Reader.streaming_take _ _) .invalidBool (by decide) (fun bytes => ?_)
      rfl fun bs h => ?_
    · cases ofObjectBytes host .bool bytes with
      | none => exact Or.inr rfl
      | some value => exact Or.inl ⟨_, rfl⟩
    · cases bs with
      | nil => exact ⟨[0], [0], _, by decide, rfl, rfl⟩
      | cons c cs => cases h

theorem readFloat_streaming (host : Endian) (f : FloatType) : (readFloat host f).Streaming .outOfRange :=
  Reader.Streaming.bind (Reader.streaming_take _ _) fun _ => Reader.streaming_pure _ _

theorem readCount_streaming (host : Endian) : (readCount host).Streaming .outOfRange :=
  Reader.Streaming.bind (Reader.streaming_take _ _) fun _ => Reader.streaming_pure _ _

theorem Ty.read_streaming (host : Endian) (t : Ty) (ht : t.Supported) : (t.read host).Streaming .outOfRange := by
  have hleaves : OfLeaves host fun _ r => r.Streaming .outOfRange :=
    { Reader.streaming_composes Fault.outOfRange with
      integral := readIntegral_streaming host
      floating := readFloat_streaming host
      count := readCount_streaming host
      char := Reader.streaming_item _ }
  exact t.read_of_leaves hleaves ht

/-- **A byte outside the buffer is read exactly when the buffer ends inside the layout of a value**, where all bytes for
`bool`s are `0` or `1`. From a buffer that starts with the layout of a value exactly its bytes are read. There are no
other buffers, and none is reported by an exception. -/
theorem reads_outside_iff (host : Endian) (t : Ty) (ht : t.Supported) {n : Nat} (hn : t.depth ≤ n) {buffer : List UInt8}
    (hb : t.BoolsValid host buffer) :
    (deserialize host n buffer t = .fault .outOfRange ↔
      ∃ more v ps, more ≠ [] ∧ Layout host (buffer ++ more) (t.leaves v) ps) ∧
    (∀ v k, deserialize host n buffer t = .done (v, k) ↔
      ∃ used rest ps, buffer = used ++ rest ∧ Layout host used (t.leaves v) ps ∧ k = used.length) ∧
    (deserialize host n buffer t = .fault .outOfRange ∨ ∃ v k, deserialize host n buffer t = .done (v, k)) := by
  refine ⟨⟨fun h => ?_, fun h => ?_⟩, fun v k => ?_, ?_⟩
  · obtain ⟨more, v, hmore, hrun⟩ := (t.read_streaming host ht).complete buffer ((deserialize_eq_fault hn).mp h)
    obtain ⟨used, hsplit, hy⟩ := Reader.yields_of_run hrun
    rw [List.append_nil] at hsplit
    obtain ⟨ps, hlayout⟩ := (t.yields_iff host).mp hy
    exact ⟨more, v, ps, hmore, hsplit ▸ hlayout⟩
  · obtain ⟨more, v, ps, hmore, hlayout⟩ := h
    have hrun : (t.read host).run (buffer ++ more) = .ok (v, []) := by
      have hy := (t.yields_iff host).mpr ⟨ps, hlayout⟩ []
      rwa [List.append_nil] at hy
    rw [deserialize_eq_fault hn, Reader.short_iff (t.read_streaming host ht)]
    exact ⟨more, v, [], hrun, List.length_pos_of_ne_nil hmore⟩
  · rw [deserialize_eq_done hn]
    simp only [t.yields_iff host]
    constructor
    · rintro ⟨used, rest, hsplit, ⟨ps, hlayout⟩, hk⟩
      exact ⟨used, rest, ps, hsplit, hlayout, hk⟩
    · rintro ⟨used, rest, ps, hsplit, hlayout, hk⟩
      exact ⟨used, rest, hsplit, ⟨ps, hlayout⟩, hk⟩
  · have hends := comes_upon_iff host t ht hn buffer
    cases hrest : (t.cut host buffer).2 with
    | none => exact Or.inl (hends.2.1.mpr ⟨hb, hrest⟩)
    | some rest =>
      obtain ⟨v, used, _, hdone, _⟩ := deserialize_of_cut ht hn (Prod.ext rfl hrest) hb
      exact Or.inr ⟨v, _, hdone⟩

/-- A struct of a `bool` and a vector of bytes. -/
abbrev flagAndBytes : Ty := .struct (.cons (.scalar (.integral .bool))
  (.cons (.vector (.scalar (.integral (.int .unsigned .w8)))) .nil))

/-- A vector of two bytes behind a `bool`, of which the buffer holds one. -/
theorem reads_outside_vector : deserialize .little 3 [1, 2, 0, 0, 0, 7] flagAndBytes = .fault .outOfRange := by
  have hflag : flagAndBytes.Supported := ⟨trivial, trivial, trivial⟩
  have hdepth : flagAndBytes.depth ≤ 3 := by decide
  have hbools : flagAndBytes.BoolsValid .little [1, 2, 0, 0, 0, 7] := by decide
  have hrule := (reads_outside_iff .little flagAndBytes hflag hdepth hbools).1
  refine hrule.mpr ⟨[8], (true, [7, 8], ()), [.integral .bool [1], .length [2, 0, 0, 0],
    .integral (.int .unsigned .w8) [7], .integral (.int .unsigned .w8) [8]], by decide, rfl, ?_⟩
  exact .cons (.integral rfl) (.cons (.length rfl) (.cons (.integral rfl) (.cons (.integral rfl) .nil)))

/-- A `uint8_t` is read from an empty buffer. -/
theorem reads_outside_empty :
    deserialize .little 1 [] (.scalar (.integral (.int .unsigned .w8))) = .fault .outOfRange := rfl

end Borsh
