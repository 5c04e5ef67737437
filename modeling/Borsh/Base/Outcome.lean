import Mathlib.Data.Vector.Basic

/-!
# Commands that update a state in place

`Outcome ε φ σ` is how a command on a state `σ` ends. It ends normally (`done`), by an exception, which keeps the
state as it was when it was thrown (`thrown`), or in a fault that leaves no state behind (`fault`): undefined
behaviour, or a stack that ran out. Loops over a list (`forEach`), a number of times (`times`) and over the elements
of a vector in place (`updateEach`) are folds of `bind`.

The lemmas say how a loop splits (`forEach_append`, `forEach_flatMap`), how it commutes with a change of state
(`forEach_map`), and how commands that only read compose (`ofExcept_bind`).
-/

/-- How a command ends: normally, by an exception that keeps the state, or in a fault. -/
inductive Outcome (ε φ σ : Type) where
  | done (s : σ)
  | thrown (e : ε) (s : σ)
  | fault (f : φ)

namespace Outcome

variable {ε φ σ τ υ α β : Type}

/-- Continue from the state of a normal end. -/
def bind : Outcome ε φ σ → (σ → Outcome ε φ σ) → Outcome ε φ σ
  | .done s, k => k s
  | .thrown e s, _ => .thrown e s
  | .fault f, _ => .fault f

/-- Leave a scope: `k` gives the outer state after a normal end, `unwind` the outer state after a throw. -/
def leave (k unwind : σ → τ) : Outcome ε φ σ → Outcome ε φ τ
  | .done s => .done (k s)
  | .thrown e s => .thrown e (unwind s)
  | .fault f => .fault f

/-- A command on a part of a state, as a command on the whole. -/
def map (g : σ → τ) : Outcome ε φ σ → Outcome ε φ τ := leave g g

/-- The state that a command leaves behind when it ends without a fault. -/
def state? : Outcome ε φ σ → Option σ
  | .done s => some s
  | .thrown _ s => some s
  | .fault _ => none

/-- A computation that reads, as a command: it may fault, and it never throws. -/
def ofExcept (k : α → σ) : Except φ α → Outcome ε φ σ
  | .ok a => .done (k a)
  | .error f => .fault f

/-- `for (auto a : as) body`. -/
def forEach (body : α → σ → Outcome ε φ σ) : List α → σ → Outcome ε φ σ
  | [], s => .done s
  | a :: as, s => (body a s).bind (forEach body as)

/-- `for (i = 0; i < n; ++i) body`, with a body that does not use `i`. -/
def times (body : σ → Outcome ε φ σ) : Nat → σ → Outcome ε φ σ
  | 0, s => .done s
  | n + 1, s => (body s).bind (times body n)

/-- `for (auto& a : as) body`, which updates the elements in place. -/
def updateEach (body : α × σ → Outcome ε φ (α × σ)) :
    {n : Nat} → List.Vector α n × σ → Outcome ε φ (List.Vector α n × σ)
  | 0, (as, s) => .done (as, s)
  | _ + 1, (as, s) =>
    ((body (as.head, s)).map fun (a, s) => (List.Vector.cons a as.tail, s)).bind fun (as, s) =>
      (updateEach body (as.tail, s)).map fun (rest, s) => (List.Vector.cons as.head rest, s)

/-! ## Bind and map -/

@[simp] theorem done_bind (s : σ) (k : σ → Outcome ε φ σ) : (done s).bind k = k s := rfl

@[simp] theorem thrown_bind (e : ε) (s : σ) (k : σ → Outcome ε φ σ) : (thrown e s).bind k = thrown e s := rfl

@[simp] theorem fault_bind (f : φ) (k : σ → Outcome ε φ σ) : (fault f).bind k = fault f := rfl

@[simp] theorem map_done (g : σ → τ) (s : σ) : (done s : Outcome ε φ σ).map g = done (g s) := rfl

@[simp] theorem map_thrown (g : σ → τ) (e : ε) (s : σ) : (thrown e s : Outcome ε φ σ).map g = thrown e (g s) := rfl

@[simp] theorem map_fault (g : σ → τ) (f : φ) : (fault f : Outcome ε φ σ).map g = fault f := rfl

@[simp] theorem state?_done (s : σ) : (done s : Outcome ε φ σ).state? = some s := rfl

@[simp] theorem state?_thrown (e : ε) (s : σ) : (thrown e s : Outcome ε φ σ).state? = some s := rfl

@[simp] theorem state?_map (g : σ → τ) (o : Outcome ε φ σ) : (o.map g).state? = o.state?.map g := by cases o <;> rfl

@[simp] theorem bind_done (o : Outcome ε φ σ) : o.bind done = o := by cases o <;> rfl

theorem bind_assoc (o : Outcome ε φ σ) (k l : σ → Outcome ε φ σ) :
    (o.bind k).bind l = o.bind fun s => (k s).bind l := by cases o <;> rfl

@[simp] theorem map_id (o : Outcome ε φ σ) : o.map id = o := by cases o <;> rfl

@[simp] theorem map_map (g : σ → τ) (h : τ → υ) (o : Outcome ε φ σ) : (o.map g).map h = o.map (h ∘ g) := by
  cases o <;> rfl

theorem map_eq_done {g : σ → τ} {o : Outcome ε φ σ} {t : τ} : o.map g = done t ↔ ∃ s, o = done s ∧ g s = t := by
  cases o <;> simp

theorem map_eq_fault {g : σ → τ} {o : Outcome ε φ σ} {f : φ} : o.map g = fault f ↔ o = fault f := by
  cases o <;> simp

/-- A change of state commutes with `bind` when it commutes with the continuation. -/
theorem map_bind {g : σ → τ} {k : σ → Outcome ε φ σ} {l : τ → Outcome ε φ τ} (h : ∀ s, l (g s) = (k s).map g)
    (o : Outcome ε φ σ) : (o.map g).bind l = (o.bind k).map g := by
  cases o with
  | done s => exact h s
  | thrown e s => rfl
  | fault f => rfl

/-! ## Loops over a list -/

theorem forEach_append (body : α → σ → Outcome ε φ σ) : ∀ (as bs : List α) (s : σ),
    forEach body (as ++ bs) s = (forEach body as s).bind (forEach body bs)
  | [], _, _ => rfl
  | a :: as, bs, s => by
    simp only [List.cons_append, forEach, bind_assoc]
    congr 1
    funext s'
    exact forEach_append body as bs s'

/-- A loop over the concatenation of lists is a loop of loops. -/
theorem forEach_flatMap (body : β → σ → Outcome ε φ σ) (f : α → List β) : ∀ (as : List α) (s : σ),
    forEach body (as.flatMap f) s = forEach (fun a => forEach body (f a)) as s
  | [], _ => rfl
  | a :: as, s => by
    simp only [List.flatMap_cons, forEach_append, forEach]
    congr 1
    funext s'
    exact forEach_flatMap body f as s'

/-- A loop over a list of images runs the body on the images. -/
theorem forEach_map_list (body : β → σ → Outcome ε φ σ) (f : α → β) : ∀ (as : List α) (s : σ),
    forEach body (as.map f) s = forEach (fun a => body (f a)) as s
  | [], _ => rfl
  | a :: as, s => by
    simp only [List.map_cons, forEach]
    congr 1
    funext s'
    exact forEach_map_list body f as s'

/-- A loop commutes with a change of state when its body does. -/
theorem forEach_map {g : σ → τ} {body : α → σ → Outcome ε φ σ} {body' : α → τ → Outcome ε φ τ} :
    ∀ (as : List α), (∀ a ∈ as, ∀ s, body' a (g s) = (body a s).map g) →
      ∀ s, forEach body' as (g s) = (forEach body as s).map g
  | [], _, _ => rfl
  | a :: as, h, s => by
    rw [forEach, h a List.mem_cons_self s, forEach]
    exact map_bind (forEach_map as fun b hb => h b (List.mem_cons_of_mem a hb)) _

/-! ## Commands that only read -/

@[simp] theorem ofExcept_ok (k : α → σ) (a : α) : (ofExcept k (.ok a) : Outcome ε φ σ) = done (k a) := rfl

@[simp] theorem ofExcept_error (k : α → σ) (f : φ) : (ofExcept k (.error f) : Outcome ε φ σ) = fault f := rfl

@[simp] theorem map_ofExcept (k : α → σ) (g : σ → τ) (e : Except φ α) :
    (ofExcept k e : Outcome ε φ σ).map g = ofExcept (g ∘ k) e := by cases e <;> rfl

theorem ofExcept_leave (k : α → σ) (g u : σ → τ) (e : Except φ α) :
    (ofExcept k e : Outcome ε φ σ).leave g u = ofExcept (g ∘ k) e := by cases e <;> rfl

/-- Reading and then reading on. -/
theorem ofExcept_bind {k : α → σ} {l : β → σ} {next : α → Except φ β} {f : σ → Outcome ε φ σ}
    (h : ∀ a, f (k a) = ofExcept l (next a)) (e : Except φ α) :
    (ofExcept k e).bind f = ofExcept l (e.bind next) := by
  cases e with
  | ok a => exact h a
  | error f => rfl

theorem ofExcept_eq_done {k : α → σ} {e : Except φ α} {s : σ} :
    (ofExcept k e : Outcome ε φ σ) = done s ↔ ∃ a, e = .ok a ∧ k a = s := by
  cases e <;> simp

theorem ofExcept_eq_fault {k : α → σ} {e : Except φ α} {f : φ} :
    (ofExcept k e : Outcome ε φ σ) = fault f ↔ e = .error f := by
  cases e <;> simp

end Outcome
