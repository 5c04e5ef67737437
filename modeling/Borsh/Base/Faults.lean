import Borsh.Base.Session

/-!
# Commands and one fault

`o.Avoids f` says that the command `o` does not end in the fault `f`. `Below f o o'` says that `o'` ends as `o` does,
unless `o` ends in `f`: if `f` is the overflow of a stack, `o'` may be `o` on a deeper stack. A loop avoids `f` when its
body does, in the states that the body leaves behind (`avoids_times`), and it is below another loop when its body is
(`below_forEach`, `below_times`).
-/

namespace Outcome

variable {ε φ σ τ α : Type} {f : φ}

/-! ## A fault that does not happen -/

/-- The command does not end in the fault `f`. -/
def Avoids (o : Outcome ε φ σ) (f : φ) : Prop := o ≠ fault f

theorem avoids_done (s : σ) : (done s : Outcome ε φ σ).Avoids f := by
  intro h
  cases h

theorem Avoids.leave {o : Outcome ε φ σ} (h : o.Avoids f) (k u : σ → τ) : (o.leave k u).Avoids f := by
  intro hf
  cases o with
  | done s => cases hf
  | thrown e s => cases hf
  | fault g =>
    cases hf
    exact h rfl

theorem Avoids.map {o : Outcome ε φ σ} (h : o.Avoids f) (g : σ → τ) : (o.map g).Avoids f := h.leave g g

/-- What follows need only avoid the fault in the states that may be left behind. -/
theorem Avoids.bind {o : Outcome ε φ σ} {k : σ → Outcome ε φ σ} {P : σ → Prop} (h : o.Avoids f) (hP : o.Leaves P)
    (hk : ∀ s, P s → (k s).Avoids f) : (o.bind k).Avoids f := by
  cases o with
  | done s => exact hk s (hP s rfl)
  | thrown e s =>
    intro hf
    cases hf
  | fault g => exact h

/-- A loop whose body keeps `P` and avoids the fault where `P` holds. -/
theorem avoids_times {P : σ → Prop} {body : σ → Outcome ε φ σ}
    (h : ∀ s, P s → (body s).Avoids f ∧ (body s).Leaves P) : ∀ (n : Nat) (s : σ), P s → (times body n s).Avoids f
  | 0, s, _ => avoids_done s
  | n + 1, s, hs => by
    obtain ⟨havoids, hleaves⟩ := h s hs
    exact havoids.bind hleaves fun s' hs' => avoids_times h n s' hs'

/-! ## Commands that differ in a fault -/

/-- `o'` ends as `o` does, unless `o` ends in the fault `f`. -/
def Below (f : φ) (o o' : Outcome ε φ σ) : Prop := o = fault f ∨ o' = o

theorem below_rfl (o : Outcome ε φ σ) : Below f o o := Or.inr rfl

theorem below_fault (o : Outcome ε φ σ) : Below f (fault f) o := Or.inl rfl

theorem Below.leave {o o' : Outcome ε φ σ} (h : Below f o o') (k u : σ → τ) : Below f (o.leave k u) (o'.leave k u) := by
  rcases h with rfl | rfl
  · exact below_fault _
  · exact below_rfl _

theorem Below.map {o o' : Outcome ε φ σ} (h : Below f o o') (g : σ → τ) : Below f (o.map g) (o'.map g) := h.leave g g

theorem Below.bind {o o' : Outcome ε φ σ} {k k' : σ → Outcome ε φ σ} (h : Below f o o')
    (hk : ∀ s, Below f (k s) (k' s)) : Below f (o.bind k) (o'.bind k') := by
  rcases h with rfl | rfl
  · exact below_fault _
  · cases o' with
    | done s => exact hk s
    | thrown e s => exact below_rfl _
    | fault g => exact below_rfl _

theorem below_forEach {body body' : α → σ → Outcome ε φ σ} (h : ∀ a s, Below f (body a s) (body' a s)) :
    ∀ (as : List α) (s : σ), Below f (forEach body as s) (forEach body' as s)
  | [], s => below_rfl (done s)
  | a :: as, s => (h a s).bind (below_forEach h as)

theorem below_times {body body' : σ → Outcome ε φ σ} (h : ∀ s, Below f (body s) (body' s)) :
    ∀ (n : Nat) (s : σ), Below f (times body n s) (times body' n s)
  | 0, s => below_rfl (done s)
  | n + 1, s => (h s).bind (below_times h n)

end Outcome
