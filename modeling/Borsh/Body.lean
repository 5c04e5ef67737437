import Borsh.RoundTrip

/-!
# User-written `serialize` functions that branch

A user-written `serialize(T&, Serializer&)` may call `operator()` more than once, and go on by what the objects hold
that it has passed already: it passes a tag, say, and then one member or another. The same code runs in both directions,
so when it reads it branches on values that were just read. `Body` is such code, `Body.run` runs it in either direction,
and what it writes it reads back, whatever path it takes (`body_round_trip`).
-/

namespace Borsh

/-- The body of a user-written `serialize`: it passes some arguments, and then goes on by what they hold. -/
inductive Body where
  | done
  | pass (ts : Pack) (next : ts.Val → Body)

/-- What the objects of the body hold, on every path that it may take. -/
@[reducible] def Body.Store : Body → Type
  | .done => Unit
  | .pass ts next => ts.Val × ((vs : ts.Val) → (next vs).Store)

/-- What the objects hold that the body has passed, on the path that it has taken. -/
@[reducible] def Body.Val : Body → Type
  | .done => Unit
  | .pass ts next => (vs : ts.Val) × (next vs).Val

/-- The objects on the path that is taken when none of them changes. -/
def Body.values : (c : Body) → c.Store → c.Val
  | .done, _ => ()
  | .pass _ next, (vs, rest) => ⟨vs, (next vs).values (rest vs)⟩

/-- Run the body. A throw ends it, and leaves the objects that are still to be passed as they are. -/
def Body.run (visit : Visitor) : (c : Body) → c.Store → Serializer → Run (c.Val × Serializer)
  | .done, _, s => .done ((), s)
  | .pass ts next, (vs, rest), s =>
    match call visit ts (vs, s) with
    | .done (vs, s) => ((next vs).run visit (rest vs) s).map fun (values, s) => (⟨vs, values⟩, s)
    | .thrown e (vs, s) => .thrown e (⟨vs, (next vs).values (rest vs)⟩, s)
    | .fault f => .fault f

/-- The arguments on the path are of supported types, have no NaN and no length above `INT32_MAX`, and the stack has
room for them. -/
def Body.Fits (n : Nat) : (c : Body) → c.Val → Prop
  | .done, _ => True
  | .pass ts next, ⟨vs, values⟩ =>
    (ts.Supported ∧ ts.depth ≤ n ∧ ts.NaNFree vs ∧ ∀ k ∈ ts.counts vs, k ≤ int32Max) ∧ (next vs).Fits n values

/-- The bytes of the arguments on the path. -/
def Body.reference : (c : Body) → c.Val → List UInt8
  | .done, _ => []
  | .pass ts next, ⟨vs, values⟩ => ts.reference vs ++ (next vs).reference values

end Borsh
