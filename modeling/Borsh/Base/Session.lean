import Borsh.Base.Outcome

/-!
# Sessions

A session is a run of commands on one state, by a client that catches exceptions and goes on with the state as they
left it (`Session.run`). A fault ends it. `Leaves o P` says that `P` holds of whatever state the command `o` leaves
behind, at a normal end or by an exception. A relation that holds between the states before and after each command, and
that is reflexive and transitive, holds between those before and after a loop (`leaves_forEach`, `leaves_times`) and a
session (`run_related`).
-/

namespace Outcome

variable {ε φ σ τ α : Type}

/-- Every state that the command leaves behind has the property. -/
def Leaves (o : Outcome ε φ σ) (P : σ → Prop) : Prop := ∀ s, o.state? = some s → P s

theorem leaves_done {P : σ → Prop} {s : σ} (h : P s) : (done s : Outcome ε φ σ).Leaves P := by
  intro s' hs
  cases hs
  exact h

theorem leaves_thrown {P : σ → Prop} {e : ε} {s : σ} (h : P s) : (thrown e s : Outcome ε φ σ).Leaves P := by
  intro s' hs
  cases hs
  exact h

theorem leaves_fault (P : σ → Prop) (f : φ) : (fault f : Outcome ε φ σ).Leaves P := by
  intro s hs
  cases hs

theorem Leaves.mono {o : Outcome ε φ σ} {P Q : σ → Prop} (h : o.Leaves P) (hPQ : ∀ s, P s → Q s) : o.Leaves Q :=
  fun s hs => hPQ s (h s hs)

theorem Leaves.leave {o : Outcome ε φ σ} {k u : σ → τ} {P : τ → Prop} (hk : o.Leaves fun s => P (k s))
    (hu : o.Leaves fun s => P (u s)) : (o.leave k u).Leaves P := by
  cases o with
  | done s => exact leaves_done (hk s rfl)
  | thrown e s => exact leaves_thrown (hu s rfl)
  | fault f => exact leaves_fault P f

theorem Leaves.map {o : Outcome ε φ σ} {g : σ → τ} {P : τ → Prop} (h : o.Leaves fun s => P (g s)) :
    (o.map g).Leaves P := h.leave h

/-- An exception keeps the state, so what follows need not restore the property. -/
theorem Leaves.bind {o : Outcome ε φ σ} {k : σ → Outcome ε φ σ} {P : σ → Prop} (h : o.Leaves P)
    (hk : ∀ s, P s → (k s).Leaves P) : (o.bind k).Leaves P := by
  cases o with
  | done s => exact hk s (h s rfl)
  | thrown e s => exact leaves_thrown (h s rfl)
  | fault f => exact leaves_fault P f

section Loops

variable {R : σ → σ → Prop} (hrefl : ∀ s, R s s) (htrans : ∀ {s s' s''}, R s s' → R s' s'' → R s s'')

include hrefl htrans

theorem leaves_forEach {body : α → σ → Outcome ε φ σ} (h : ∀ a s, (body a s).Leaves (R s)) :
    ∀ (as : List α) (s : σ), (forEach body as s).Leaves (R s)
  | [], s => leaves_done (hrefl s)
  | a :: as, s => by
    refine (h a s).bind fun s' hs => ?_
    exact (leaves_forEach h as s').mono fun s'' hs' => htrans hs hs'

theorem leaves_times {body : σ → Outcome ε φ σ} (h : ∀ s, (body s).Leaves (R s)) :
    ∀ (n : Nat) (s : σ), (times body n s).Leaves (R s)
  | 0, s => leaves_done (hrefl s)
  | n + 1, s => by
    refine (h s).bind fun s' hs => ?_
    exact (leaves_times h n s').mono fun s'' hs' => htrans hs hs'

end Loops

/-- The state that a command leaves behind, and the exception it ended with, if any. -/
def caught : Outcome ε φ σ → Option (σ × Option ε)
  | .done s => some (s, none)
  | .thrown e s => some (s, some e)
  | .fault _ => none

@[simp] theorem caught_map (g : σ → τ) (o : Outcome ε φ σ) :
    (o.map g).caught = o.caught.map fun q => (g q.1, q.2) := by cases o <;> rfl

theorem ofExcept_ne_thrown {k : α → σ} {r : Except φ α} {e : ε} {s : σ} : ofExcept k r ≠ thrown e s := by
  intro h
  cases r <;> cases h

/-- There is nothing to catch from a command that does not throw. -/
theorem caught_iff_done {o : Outcome ε φ σ} (h : ∀ e s, o ≠ thrown e s) {q : σ × Option ε} :
    o.caught = some q ↔ ∃ s, o = done s ∧ q = (s, none) := by
  cases o with
  | done s => simp [caught, eq_comm]
  | thrown e s => exact absurd rfl (h e s)
  | fault f => simp [caught]

theorem state?_of_caught {o : Outcome ε φ σ} {q : σ × Option ε} (h : o.caught = some q) : o.state? = some q.1 := by
  cases o <;> cases h <;> rfl

end Outcome

namespace Session

variable {ε φ σ ι : Type} {step : ι → σ → Outcome ε φ σ}

/-- The state after a session, and the exceptions that its commands ended with. -/
def run (step : ι → σ → Outcome ε φ σ) : List ι → σ → Option (σ × List (Option ε))
  | [], s => some (s, [])
  | i :: is, s => (step i s).caught.bind fun q => (run step is q.1).map fun r => (r.1, q.2 :: r.2)

/-- A session goes on after its first command as a session from the state that this one leaves behind. -/
theorem run_cons_iff {i : ι} {is : List ι} {s : σ} {r : σ × List (Option ε)} :
    run step (i :: is) s = some r ↔
      ∃ q es, (step i s).caught = some q ∧ run step is q.1 = some (r.1, es) ∧ r.2 = q.2 :: es := by
  rw [run, Option.bind_eq_some_iff]
  constructor
  · intro ⟨q, hq, hr⟩
    obtain ⟨⟨s', es⟩, hrun, rfl⟩ := Option.map_eq_some_iff.mp hr
    exact ⟨q, es, hq, hrun, rfl⟩
  · intro ⟨q, es, hq, hrun, hes⟩
    refine ⟨q, hq, Option.map_eq_some_iff.mpr ⟨_, hrun, ?_⟩⟩
    rw [← hes]

/-- What every command keeps, a session keeps. -/
theorem run_related {R : σ → σ → Prop} (hrefl : ∀ s, R s s) (htrans : ∀ {s s' s''}, R s s' → R s' s'' → R s s'')
    (h : ∀ i s, (step i s).Leaves (R s)) : ∀ {is : List ι} {s : σ} {r : σ × List (Option ε)},
      run step is s = some r → R s r.1
  | [], s, r, hr => by
    cases hr
    exact hrefl s
  | i :: is, s, r, hr => by
    obtain ⟨q, es, hq, hrun, _⟩ := run_cons_iff.mp hr
    have hrest : R q.1 (r.1, es).1 := run_related hrefl htrans h hrun
    exact htrans (h i s q.1 (Outcome.state?_of_caught hq)) hrest

/-- Commands that are known to leave a state behind make up a session that does. -/
theorem run_effect {I : σ → Prop} {next : ι → σ → σ} {exn : ι → Option ε} : ∀ {is : List ι},
    (∀ i ∈ is, ∀ s, I s → (step i s).caught = some (next i s, exn i) ∧ I (next i s)) → ∀ s, I s →
      run step is s = some (is.foldl (fun s i => next i s) s, is.map exn)
  | [], _, s, _ => rfl
  | i :: is, h, s, hs => by
    obtain ⟨hcaught, hnext⟩ := h i List.mem_cons_self s hs
    have htail := run_effect (fun j hj => h j (List.mem_cons_of_mem _ hj)) (next i s) hnext
    rw [run, hcaught, Option.bind_some, htail]
    rfl

end Session
