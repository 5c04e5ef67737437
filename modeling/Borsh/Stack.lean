import Borsh.Base.Faults
import Borsh.Decode
import Borsh.Encode

/-!
# Deeper stacks

A run that does not overflow the stack is the same on every deeper one, for any type, in either direction and from any
state (`visit_below`). Every function of the library keeps this order between the visitors that it is given. On stacks
with room for the depth of a type there is no difference at all (`visit_stable`, `call_stable`).
-/

namespace Borsh

/-- `o'` ends as `o` does, unless `o` overflows the stack. -/
abbrev Below {σ : Type} (o o' : Run σ) : Prop := Outcome.Below Fault.stackOverflow o o'

/-- The second visitor does what the first does, unless that one overflows the stack. -/
def Visitor.Below (visit visit' : Visitor) : Prop := ∀ (t : Ty) (q : t.Val × Serializer),
  Borsh.Below (visit t q) (visit' t q)

theorem load_below {σ : Type} {mem : List UInt8} {p n : Nat} {use use' : List UInt8 → Run σ}
    (h : ∀ bytes, Below (use bytes) (use' bytes)) : Below (load mem p n use) (load mem p n use') := by
  unfold load
  split
  · exact h _
  · exact Outcome.below_rfl _

section Dispatch

variable {host : Endian} {visit visit' : Visitor} (h : visit.Below visit')

include h

theorem call_below : ∀ (ts : Pack) (q : ts.Val × Serializer), Below (call visit ts q) (call visit' ts q)
  | .nil, q => Outcome.below_rfl _
  | .cons t ts, ((v, vs), s) => by
    refine ((h t (v, s)).map _).bind fun q => ?_
    exact (call_below ts (q.1.2, q.2)).map _

theorem callOne_below (t : Ty) (q : t.Val × Serializer) : Below (callOne visit t q) (callOne visit' t q) :=
  (call_below h (.cons t .nil) ((q.1, ()), q.2)).map _

theorem serializeWith_below : (serializeWith visit).Below (serializeWith visit')
  | .struct fields, q => call_below h fields q
  | .scalar st, q => callOne_below h (.scalar st) q
  | .cArray st n, q => callOne_below h (.cArray st n) q
  | .stdArray t n, q => callOne_below h (.stdArray t n) q
  | .vector t, q => callOne_below h (.vector t) q

theorem serializeItem_below (t : Ty) (item : t.Val) (s : Serializer) :
    Below (serializeItem host visit t item s) (serializeItem host visit' t item s) := by
  cases t with
  | scalar st => exact Outcome.below_rfl _
  | cArray st n => exact Outcome.below_rfl _
  | stdArray t n => exact (serializeWith_below h (.stdArray t n) (item, s)).map _
  | vector t => exact (serializeWith_below h (.vector t) (item, s)).map _
  | struct fields => exact (serializeWith_below h (.struct fields) (item, s)).map _

theorem visitSerialize_below : (visitSerialize host visit).Below (visitSerialize host visit') := by
  intro t q
  cases t with
  | scalar st => exact Outcome.below_rfl _
  | cArray st n => exact Outcome.below_rfl _
  | vector t => exact (Outcome.below_forEach (serializeItem_below h t) q.1 _).map _
  | struct fields => exact serializeWith_below h (.struct fields) q
  | stdArray t n =>
    rcases t.scalar_or_not with ⟨st, rfl⟩ | ht
    · exact Outcome.below_rfl _
    · rw [visitSerialize_stdArray host visit ht, visitSerialize_stdArray host visit' ht]
      exact serializeWith_below h (.stdArray t n) q

theorem deserializeElement_below (t : Ty) (s : Serializer) :
    Below (deserializeElement host visit t s) (deserializeElement host visit' t s) := by
  cases t with
  | scalar st => exact Outcome.below_rfl _
  | cArray st n => exact Outcome.below_rfl _
  | stdArray t n => exact serializeWith_below h (.stdArray t n) ((Ty.stdArray t n).initial, s)
  | vector t => exact serializeWith_below h (.vector t) ((Ty.vector t).initial, s)
  | struct fields => exact serializeWith_below h (.struct fields) ((Ty.struct fields).initial, s)

theorem visitDeserialize_below : (visitDeserialize host visit).Below (visitDeserialize host visit') := by
  intro t q
  cases t with
  | scalar st => exact Outcome.below_rfl _
  | cArray st n => exact Outcome.below_rfl _
  | vector t =>
    obtain ⟨v, s⟩ := q
    unfold visitDeserialize
    refine load_below fun bytes => Outcome.below_times (fun q => ?_) _ _
    exact (deserializeElement_below h t q.2).leave _ _
  | struct fields => exact serializeWith_below h (.struct fields) q
  | stdArray t n =>
    rcases t.scalar_or_not with ⟨st, rfl⟩ | ht
    · exact Outcome.below_rfl _
    · rw [visitDeserialize_stdArray host visit ht, visitDeserialize_stdArray host visit' ht]
      exact serializeWith_below h (.stdArray t n) q

end Dispatch

/-- **A deeper stack** makes a difference only to a run that overflows. -/
theorem visit_below (host : Endian) : ∀ {n m : Nat}, n ≤ m → (visit host n).Below (visit host m)
  | 0, _, _, _, _ => Outcome.below_fault _
  | n + 1, m + 1, hnm, t, (v, s) => by
    have hless := visit_below host (Nat.le_of_succ_le_succ hnm)
    unfold visit
    cases s.direction with
    | serialize => exact visitSerialize_below hless t (v, s)
    | deserialize => exact visitDeserialize_below hless t (v, s)

/-! ## Enough stack -/

theorem visit_stable (host : Endian) (t : Ty) {n m : Nat} (hn : t.depth ≤ n) (hm : t.depth ≤ m)
    (q : t.Val × Serializer) : visit host n t q = visit host m t q := by
  obtain ⟨v, s⟩ := q
  cases hs : s.direction with
  | serialize => rw [visit_serialize host t n hn v s hs, visit_serialize host t m hm v s hs]
  | deserialize => rw [visit_deserialize host t n hn v s hs, visit_deserialize host t m hm v s hs]

theorem call_stable (host : Endian) (ts : Pack) {n m : Nat} (hn : ts.depth ≤ n) (hm : ts.depth ≤ m)
    (q : ts.Val × Serializer) : call (visit host n) ts q = call (visit host m) ts q := by
  obtain ⟨vs, s⟩ := q
  cases hs : s.direction with
  | serialize => rw [call_serialize host ts n hn vs s hs, call_serialize host ts m hm vs s hs]
  | deserialize => rw [call_deserialize host ts n hn vs s hs, call_deserialize host ts m hm vs s hs]

end Borsh
