import Borsh.Canonical

/-!
# Lengths above `INT32_MAX`

A decoded value has no string or vector longer than `INT32_MAX` (`deserialize_counts_le`): the loops of the decoder are
bounded by an `int32_t`. The encoder checks no length, so what it writes for a longer one is never read back
(`long_lengths_lost`).
-/

namespace Borsh

/-- The decoder returns no string or vector that is longer than `INT32_MAX`. -/
theorem deserialize_counts_le {host : Endian} {t : Ty} {n : Nat} (hn : t.depth ≤ n) {bs : List UInt8} {v : t.Val}
    {k : Nat} (h : deserialize host n bs t = .done (v, k)) : ∀ c ∈ t.counts v, c ≤ int32Max := by
  intro c hc
  obtain ⟨ps, _, haudit⟩ := deserialize_audit hn h
  rw [haudit.counts_eq] at hc
  obtain ⟨p, _, rfl⟩ := List.mem_map.mp hc
  exact loopCount_le p

/-- **A value with a longer string or vector is lost silently**: it is written without an error, and what was written is
not read back as the value. -/
theorem long_lengths_lost (host : Endian) (t : Ty) (ht : t.Supported) (v : t.Val) (hv : t.NaNFree v)
    (hlong : ∃ c ∈ t.counts v, int32Max < c) {n : Nat} (hn : t.depth ≤ n) :
    ∃ bytes, serialize host n t v = .done bytes ∧
      ∀ m, t.depth ≤ m → ∀ v' k, deserialize host m bytes t = .done (v', k) → v' ≠ v := by
  refine ⟨written host (t.leaves v), ?_, ?_⟩
  · rw [serialize_eq host hn v, writeLeaves_done host _ _ hv (t.leaves_supported ht v)]
    rfl
  · rintro m hm v' k h rfl
    obtain ⟨c, hc, hlt⟩ := hlong
    have hle := deserialize_counts_le hm h c hc
    omega

/-- A string of `2 ^ 31` characters. -/
theorem long_lengths_lost_string :
    ∃ bytes, serialize .little 1 (.scalar .string) (List.replicate 2147483648 97) = .done bytes ∧
      ∀ m, 1 ≤ m → ∀ v' k, deserialize .little m bytes (.scalar .string) = .done (v', k) →
        v' ≠ List.replicate 2147483648 97 :=
  long_lengths_lost .little (.scalar .string) trivial (List.replicate 2147483648 97)
    (Ty.FloatFree.nanFree (by decide) _)
    ⟨(List.replicate 2147483648 97).length, mem_counts.mpr List.mem_cons_self, by rw [List.length_replicate]; decide⟩
    (by decide)

/-- A string of `2 ^ 32` characters is written with the prefix zero, and read back as the empty string. -/
theorem wrapped_length_lost :
    serialize .little 1 (.scalar .string) (List.replicate 4294967296 97) =
      .done ([0, 0, 0, 0] ++ List.replicate 4294967296 97) ∧
    deserialize .little 1 ([0, 0, 0, 0] ++ List.replicate 4294967296 97) (.scalar .string) = .done ([], 4) ∧
    ([] : List UInt8) ≠ List.replicate 4294967296 97 := by
  have hsupported : (Ty.scalar .string).Supported := trivial
  have hnan : (Ty.scalar .string).NaNFree (List.replicate 4294967296 97) := Ty.FloatFree.nanFree (by decide) _
  refine ⟨?_, ?_, ?_⟩
  · have hprefix : u32 4294967296 = [0, 0, 0, 0] := by decide
    rw [serialize_reference hsupported (by decide) hnan]
    show Outcome.done (u32 (List.replicate 4294967296 97).length ++ List.replicate 4294967296 97) = _
    rw [List.length_replicate, hprefix]
  · refine (deserialize_eq_done (by decide)).mpr ⟨[0, 0, 0, 0], List.replicate 4294967296 97, rfl, ?_, rfl⟩
    refine Ty.read_yields .little (.scalar .string) [] (Ty.leaves_supported _ hsupported _) fun n hn => ?_
    rcases List.mem_cons.mp hn with hn | hn
    · cases hn
      exact (readsCount_little 0).mpr (by decide)
    · cases hn
  · intro h
    have hlen := congrArg List.length h
    rw [List.length_replicate] at hlen
    cases hlen

end Borsh
