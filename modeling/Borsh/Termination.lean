import Borsh.Canonical

/-!
# Termination

`visit` on a `std::array` whose elements are not scalars passes the same array to `serialize`, to `operator()` and so
back to itself. A run is infinite exactly when it comes upon such an array: on the way to the first NaN of a value it
writes, or anywhere in the layout of the bytes it reads (`terminates_iff`). All other runs end on a stack with room for
the depth of the type.
-/

namespace Borsh

/-- The run ends on every stack from some depth on. -/
def Terminates {σ : Type} (run : Nat → Run σ) : Prop := ∃ n, ∀ m, n ≤ m → run m ≠ .fault .stackOverflow

/-- A run that is the same on every deep enough stack terminates when that one does not overflow. -/
theorem terminates_of_eq {σ : Type} {run : Nat → Run σ} {o : Run σ} {n : Nat} (h : ∀ m, n ≤ m → run m = o) :
    Terminates run ↔ o ≠ .fault .stackOverflow := by
  constructor
  · rintro ⟨k, hk⟩
    rw [← h (max n k) (Nat.le_max_left n k)]
    exact hk _ (Nat.le_max_right n k)
  · intro ho
    refine ⟨n, fun m hm => ?_⟩
    rw [h m hm]
    exact ho

/-! ## The encoding of a value with a re-entered array -/

theorem not_all_reentry {ls : List Leaf} :
    (¬ ∀ l ∈ ls, l.isReentry = false) ↔ ∃ l ∈ ls, l.isReentry = true := by simp

/-- The encoding of a value is read to its end, or up to the first re-entered array. -/
theorem Ty.reads_or_fails {host : Endian} {t : Ty} {v : t.Val} (hc : ∀ n, .length n ∈ t.leaves v → host.ReadsCount n)
    (hf : (∃ l ∈ t.leaves v, l.isReentry = true) → (t.read host).FailsOn (t.reference v) .stackOverflow) :
    (t.read host).Yields (t.reference v) v ∨ (t.read host).FailsOn (t.reference v) .stackOverflow := by
  by_cases hr : ∀ l ∈ t.leaves v, l.isReentry = false
  · exact Or.inl (t.read_yields host v hr hc)
  · exact Or.inr (hf (not_all_reentry.mp hr))

mutual

/-- The reader of a type overflows on the encoding of a value with a re-entered array, after what is in front of it. -/
theorem Ty.read_failsOn (host : Endian) : ∀ (t : Ty) (v : t.Val), (∃ l ∈ t.leaves v, l.isReentry = true) →
    (∀ n, .length n ∈ t.leaves v → host.ReadsCount n) → (t.read host).FailsOn (t.reference v) .stackOverflow
  | .scalar s, x, hr, _ => absurd (Ty.leaves_supported (.scalar s) trivial x) (not_all_reentry.mpr hr)
  | .cArray s n, xs, hr, _ => absurd (Ty.leaves_supported (.cArray s n) trivial xs) (not_all_reentry.mpr hr)
  | .stdArray (.scalar s) n, xs, hr, _ =>
    absurd (Ty.leaves_supported (.stdArray (.scalar s) n) rfl xs) (not_all_reentry.mpr hr)
  | .stdArray (.cArray _ _) _, _, _, _ | .stdArray (.stdArray _ _) _, _, _, _ | .stdArray (.vector _) _, _, _, _
  | .stdArray (.struct _) _, _, _, _ => fun _ => rfl
  | .vector t, xs, hr, hc => by
    obtain ⟨l, hl, hr⟩ := hr
    rcases List.mem_cons.mp hl with rfl | hl
    · cases hr
    obtain ⟨x, hx, hl⟩ := List.mem_flatMap.mp hl
    have hcount : ∀ y ∈ xs, ∀ n, .length n ∈ t.leaves y → host.ReadsCount n := fun y hy n hn =>
      hc n (List.mem_cons_of_mem _ (List.mem_flatMap.mpr ⟨y, hy, hn⟩))
    refine Reader.FailsOn.bind_right (readCount_yields (hc xs.length List.mem_cons_self)) ?_
    refine Reader.failsOn_times xs (fun y hy => ?_) ⟨x, hx, t.read_failsOn host x ⟨l, hl, hr⟩ (hcount x hx)⟩
    exact Ty.reads_or_fails (hcount y hy) fun hry => t.read_failsOn host y hry (hcount y hy)
  | .struct fields, xs, hr, hc => fields.read_failsOn host xs hr hc

theorem Pack.read_failsOn (host : Endian) : ∀ (ts : Pack) (vs : ts.Val), (∃ l ∈ ts.leaves vs, l.isReentry = true) →
    (∀ n, .length n ∈ ts.leaves vs → host.ReadsCount n) → (ts.read host).FailsOn (ts.reference vs) .stackOverflow
  | .nil, _, hr, _ => by
    obtain ⟨l, hl, _⟩ := hr
    cases hl
  | .cons t ts, (x, xs), hr, hc => by
    have hcx : ∀ n, .length n ∈ t.leaves x → host.ReadsCount n := fun n hn => hc n (List.mem_append_left _ hn)
    have hcxs : ∀ n, .length n ∈ ts.leaves xs → host.ReadsCount n := fun n hn => hc n (List.mem_append_right _ hn)
    rcases Ty.reads_or_fails hcx fun hrx => t.read_failsOn host x hrx hcx with hy | hf
    · obtain ⟨l, hl, hr⟩ := hr
      rcases List.mem_append.mp hl with hl | hl
      · exact (t.read_failsOn host x ⟨l, hl, hr⟩ hcx).bind_left _ _
      · have hrest := (ts.read_failsOn host xs ⟨l, hl, hr⟩ hcxs).bind_left (fun values => .pure (x, values)) []
        rw [List.append_nil] at hrest
        exact Reader.FailsOn.bind_right hy hrest
    · exact hf.bind_left _ _

end

/-! ## Supported types -/

theorem readIntegral_avoids (host : Endian) (t : IntegralType) : (readIntegral host t).Avoids .stackOverflow := by
  refine Reader.Avoids.bind (Reader.avoids_take (by decide) _) fun bytes => ?_
  cases ofObjectBytes host t bytes with
  | none => exact Reader.avoids_fail (by decide)
  | some value => exact Reader.avoids_pure _ _

theorem readFloat_avoids (host : Endian) (f : FloatType) : (readFloat host f).Avoids .stackOverflow :=
  Reader.Avoids.bind (Reader.avoids_take (by decide) _) fun _ => Reader.avoids_pure _ _

theorem readCount_avoids (host : Endian) : (readCount host).Avoids .stackOverflow :=
  Reader.Avoids.bind (Reader.avoids_take (by decide) _) fun _ => Reader.avoids_pure _ _

theorem Ty.read_avoids (host : Endian) (t : Ty) (ht : t.Supported) : (t.read host).Avoids .stackOverflow := by
  have hleaves : OfLeaves host fun _ r => r.Avoids .stackOverflow :=
    { Reader.avoids_composes Fault.stackOverflow with
      integral := readIntegral_avoids host
      floating := readFloat_avoids host
      count := readCount_avoids host
      char := Reader.avoids_item (by decide) }
  exact t.read_of_leaves hleaves ht

/-! ## When a run ends -/

theorem ofExcept_overflow {α σ : Type} {k : α → σ} {e : Except Fault α} :
    (Outcome.ofExcept k e : Run σ) ≠ .fault .stackOverflow ↔ e ≠ .error .stackOverflow :=
  not_congr Outcome.ofExcept_eq_fault

/-- Every run over a supported type ends, in both directions: on any value, and on any bytes whatsoever. -/
theorem supported_terminates (host : Endian) {t : Ty} (ht : t.Supported) (v : t.Val) (s : Serializer) :
    Terminates (fun n => visit host n t (v, s)) := by
  cases hs : s.direction with
  | serialize =>
    rw [terminates_of_eq fun n hn => visit_serialize host t n hn v s hs, Ne, Outcome.map_eq_fault,
      writeLeaves_overflow_iff, ← not_all_reentry, not_not]
    exact fun l hl => t.leaves_supported ht v l (List.takeWhile_subset _ hl)
  | deserialize =>
    rw [terminates_of_eq fun n hn => visit_deserialize host t n hn v s hs, ofExcept_overflow, Ne,
      Reader.runAt_eq_error]
    exact t.read_avoids host ht _

/-- **Which runs end.** A value is written unless it has a `std::array` of elements that are no scalars in front of its
first NaN. On a buffer, the decoder calls itself for ever when the layout of the bytes has such an array. On an encoding
it does when the value has one. What is said of other buffers goes up to the first byte that is outside the buffer or is
no `bool`: such a run counts as ended here, but the code goes on. -/
theorem terminates_iff (host : Endian) (t : Ty) :
    (∀ (v : t.Val) (b : List UInt8) (p : Nat),
      Terminates (fun n => visit host n t (v, ⟨.serialize, b, p⟩)) ↔
        ∀ l ∈ beforeNaN (t.leaves v), l.isReentry = false) ∧
    (∀ (old : t.Val) (b : List UInt8) (p : Nat),
      Terminates (fun n => visit host n t (old, ⟨.deserialize, b, p⟩)) ↔
        (t.prefixes host).run (b.drop p) ≠ .error .stackOverflow) ∧
    ∀ (v old : t.Val) (before after : List UInt8), (∀ n ∈ t.counts v, host.ReadsCount n) →
      (Terminates (fun n =>
          visit host n t (old, ⟨.deserialize, before ++ (t.reference v ++ after), before.length⟩)) ↔
        ∀ l ∈ t.leaves v, l.isReentry = false) := by
  refine ⟨fun v b p => ?_, fun old b p => ?_, fun v old before after hc => ?_⟩
  · rw [terminates_of_eq fun n hn => visit_serialize host t n hn v _ rfl, Ne, Outcome.map_eq_fault,
      writeLeaves_overflow_iff, ← not_all_reentry, not_not]
  · rw [terminates_of_eq fun n hn => visit_deserialize host t n hn old _ rfl, ofExcept_overflow, Ne,
      Reader.runAt_eq_error]
    exact not_congr ((t.read_prefixes host).error_iff _ _)
  · rw [terminates_of_eq fun n hn => visit_deserialize host t n hn old _ rfl, ofExcept_overflow, Ne,
      Reader.runAt_eq_error]
    have hcount : ∀ n, .length n ∈ t.leaves v → host.ReadsCount n := fun n hn => hc n (mem_counts.mpr hn)
    simp only [List.drop_left]
    constructor
    · intro hend
      by_contra hr
      exact hend (t.read_failsOn host v (not_all_reentry.mp hr) hcount after)
    · intro hr
      rw [t.read_yields host v hr hcount after]
      intro h
      cases h

/-- A struct of a number, a `float` and a vector of arrays of structs. -/
abbrev numbersAndArrays : Ty := .struct (.cons (.scalar (.integral (.int .unsigned .w16)))
  (.cons (.scalar (.floating .float)) (.cons (.vector (.stdArray (.struct .nil) 1)) .nil)))

/-- With no array in the vector, the encoding of two numbers and the vector is read to its end. One array is not
written, unless the `float` in front of it is NaN. -/
theorem terminates_iff_struct :
    Terminates (fun n => visit .little n numbersAndArrays
      ((0, ⟨0⟩, [], ()), ⟨.deserialize, [9] ++ (numbersAndArrays.reference (7, ⟨0x3F800000⟩, [], ()) ++ [8]), 1⟩)) ∧
    ¬ Terminates (fun n => visit .little n numbersAndArrays
      ((7, ⟨0x3F800000⟩, [⟨[()], rfl⟩], ()), ⟨.serialize, [9], 0⟩)) ∧
    Terminates (fun n => visit .little n numbersAndArrays
      ((7, ⟨0x7FC00000⟩, [⟨[()], rfl⟩], ()), ⟨.serialize, [9], 0⟩)) := by
  have hrule := terminates_iff .little numbersAndArrays
  refine ⟨?_, fun h => ?_, ?_⟩
  · refine (hrule.2.2 (7, ⟨0x3F800000⟩, [], ()) (0, ⟨0⟩, [], ()) [9] [8] fun k hk => ?_).mpr (by decide)
    have hcounts : numbersAndArrays.counts (7, ⟨0x3F800000⟩, [], ()) = [0] := rfl
    rw [hcounts] at hk
    obtain rfl := List.mem_singleton.mp hk
    exact (readsCount_little 0).mpr (by decide)
  · exact absurd ((hrule.1 (7, ⟨0x3F800000⟩, [⟨[()], rfl⟩], ()) [9] 0).mp h) (by decide)
  · exact (hrule.1 (7, ⟨0x7FC00000⟩, [⟨[()], rfl⟩], ()) [9] 0).mpr (by decide)

/-- A `std::array` of one struct of one byte is not serialized. -/
theorem struct_array_overflows :
    ¬ Terminates (fun n => visit .little n
      (.stdArray (.struct (.cons (.scalar (.integral (.int .unsigned .w8))) .nil)) 1)
      (⟨[(5, ())], rfl⟩, ⟨.serialize, [], 0⟩)) := by
  rintro ⟨n, h⟩
  exact h n le_rfl (visit_stdArray_overflow .little rfl 1 n _)

end Borsh
