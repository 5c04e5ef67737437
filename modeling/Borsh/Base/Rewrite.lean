import Borsh.Base.Shape

/-!
# Rewriting what fills a shape

`Shape.rewrite` reads what fills a shape and returns it with every count written as `encode` writes it. A reader with an
encoding of what it returns does the same, when it is built like the shape: `r.emit out k` returns the encoding of what
`r` reads, in front of what `k` returns, and the rules for `emit` follow the construction of shapes (`rewrite_tokens`,
`rewrite_iterate`, `rewrite_times`). A larger shape rewrites what fills a smaller one in the same way (`Le.rewrite`).
-/

namespace Reader

variable {φ β α γ : Type}

/-- The encoding of what `r` returns, and behind it what `k` returns. -/
def emit (r : Reader φ β α) (out : α → List γ) (k : Reader φ β (List γ)) : Reader φ β (List γ) :=
  r.bind fun a => k.bind fun cs => pure (out a ++ cs)

theorem emit_bind {δ : Type} (r : Reader φ β α) (f : α → Reader φ β δ) (out : δ → List γ) (k : Reader φ β (List γ)) :
    (r.bind f).emit out k = r.bind fun a => (f a).emit out k := bind_assoc _ _ _

theorem bind_pure (r : Reader φ β α) : r.bind pure = r := by
  refine ext fun bs => ?_
  simp only [bind]
  cases r.run bs <;> rfl

theorem take_congr {short : φ} {n : Nat} {k k' : List β → Reader φ β γ} (h : ∀ bs, bs.length = n → k bs = k' bs) :
    (take short n).bind k = (take short n).bind k' := by
  refine ext fun bs => ?_
  cases hr : (take short n).run bs with
  | error f => rw [run_bind_error hr, run_bind_error hr]
  | ok q =>
    obtain ⟨used, rest⟩ := q
    rw [run_bind_ok hr, run_bind_ok hr, h used (run_take_eq_ok.mp hr).2]

/-- A loop returns as many items as it is told. -/
theorem times_congr {r : Reader φ β α} : ∀ {n : Nat} {k k' : List α → Reader φ β γ},
    (∀ as, as.length = n → k as = k' as) → (times r n).bind k = (times r n).bind k'
  | 0, k, k', h => h [] rfl
  | n + 1, k, k', h => by
    simp only [times, bind_assoc, pure_bind]
    congr 1
    funext a
    refine times_congr fun as hlen => h (a :: as) ?_
    rw [List.length_cons, hlen]

/-- The elements of a vector, one after the other. -/
theorem emit_vector (r : Reader φ β α) (out : α → List γ) (k : Reader φ β (List γ)) : ∀ n,
    (vector r n).emit (fun as => as.toList.flatMap out) k = (r.emit out)^[n] k
  | 0 => (pure_bind _ _).trans (bind_pure k)
  | n + 1 => by
    rw [Function.iterate_succ_apply', ← emit_vector r out k n]
    simp only [emit, vector, bind_assoc, pure_bind, List.Vector.toList_cons, List.flatMap_cons, List.append_assoc]

/-- What `r` returns, `r'` returns too. -/
def Extends (r' r : Reader φ β α) : Prop := ∀ bs q, r.run bs = .ok q → r'.run bs = .ok q

theorem extends_rfl (r : Reader φ β α) : r.Extends r := fun _ _ h => h

theorem Extends.bind {r r' : Reader φ β α} {k k' : α → Reader φ β γ} (h : r'.Extends r)
    (hk : ∀ a, (k' a).Extends (k a)) : (r'.bind k').Extends (r.bind k) := by
  intro bs q hq
  obtain ⟨c, rest⟩ := q
  obtain ⟨a, mid, ha, hc⟩ := run_bind_eq_ok.mp hq
  exact run_bind_eq_ok.mpr ⟨a, mid, h bs _ ha, hk a mid _ hc⟩

theorem Extends.emit {r r' : Reader φ β α} {k k' : Reader φ β (List γ)} (h : r'.Extends r) (out : α → List γ)
    (hk : k'.Extends k) : (r'.emit out k').Extends (r.emit out k) :=
  h.bind fun _ => hk.bind fun _ => extends_rfl _

theorem Extends.times {r r' : Reader φ β α} (h : r'.Extends r) : ∀ n, (times r' n).Extends (times r n)
  | 0 => extends_rfl _
  | n + 1 => h.bind fun _ => (Extends.times h n).bind fun _ => extends_rfl _

end Reader

namespace Shape

open Reader

variable {β φ : Type}

/-- Read a flag. -/
def readFlag (A : Alphabet β) (short bad : φ) : Reader φ β β :=
  (item short).bind fun b => if A.isFlag b then .pure b else .fail bad

/-- Read what fills the shape, and return it with its counts written by `encode`. -/
def rewrite (A : Alphabet β) (encode : Nat → List β) (short bad : φ) : Shape → Reader φ β (List β)
  | .done => .pure []
  | .token s => (item short).emit (fun b => [b]) (s.rewrite A encode short bad)
  | .flag s => (readFlag A short bad).emit (fun b => [b]) (s.rewrite A encode short bad)
  | .counted body s => (take short A.width).bind fun p =>
      (times (body.rewrite A encode short bad) (A.count p)).emit (fun xs => encode (A.count p) ++ xs.flatten)
        (s.rewrite A encode short bad)

variable {A : Alphabet β} {encode : Nat → List β} {short bad : φ}

theorem Le.rewrite {s s' : Shape} (h : Le s s') :
    (s'.rewrite A encode short bad).Extends (s.rewrite A encode short bad) := by
  induction h with
  | done => exact extends_rfl _
  | token _ ih => exact (extends_rfl _).emit _ ih
  | flag _ ih => exact (extends_rfl _).emit _ ih
  | widen _ ih =>
    refine Extends.emit (fun bs q hq => ?_) _ ih
    -- an allowed flag is the token that was read
    obtain ⟨c, rest⟩ := q
    obtain ⟨b, mid, hb, hc⟩ := run_bind_eq_ok.mp hq
    split at hc
    · cases hc
      exact hb
    · cases hc
  | counted _ _ ihb ih => exact (extends_rfl _).bind fun p => (ihb.times (A.count p)).emit _ ih

theorem rewrite_tokens (s : Shape) : ∀ n, (tokens n s).rewrite A encode short bad =
    (take short n).emit id (s.rewrite A encode short bad)
  | 0 => by
    rw [tokens, take_zero, emit, pure_bind]
    exact (bind_pure _).symm
  | n + 1 => by
    rw [tokens, rewrite, rewrite_tokens s n, take_succ]
    simp only [emit, bind_assoc, pure_bind, id, List.cons_append, List.nil_append]

/-- The elements of a vector, each of which is rewritten by reading and encoding it. -/
theorem rewrite_iterate {α : Type} {r : Reader φ β α} {out : α → List β} {f : Shape → Shape}
    (h : ∀ s : Shape, r.emit out (s.rewrite A encode short bad) = (f s).rewrite A encode short bad) (n : Nat)
    (s : Shape) : (vector r n).emit (fun as => as.toList.flatMap out) (s.rewrite A encode short bad) =
      (f^[n] s).rewrite A encode short bad := by
  rw [emit_vector]
  induction n with
  | zero => rfl
  | succ n ih => rw [Function.iterate_succ_apply', Function.iterate_succ_apply', ih, h]

/-- The items behind a count, each of which is rewritten by reading and encoding it. -/
theorem rewrite_times {α : Type} {r : Reader φ β α} {out : α → List β} {body : Shape}
    (h : r.emit out (.pure []) = body.rewrite A encode short bad) (s : Shape) :
    ((take short A.width).bind fun p => (times r (A.count p)).emit
      (fun as => encode as.length ++ as.flatMap out) (s.rewrite A encode short bad)) =
        (Shape.counted body s).rewrite A encode short bad := by
  have hbody : body.rewrite A encode short bad = r.bind fun a => .pure (out a) := by
    rw [← h]
    simp only [emit, pure_bind, List.append_nil]
  rw [rewrite, hbody]
  simp only [times_map, emit, bind_assoc, pure_bind, ← List.flatMap_def]
  congr 1
  funext p
  refine times_congr fun as hlen => ?_
  rw [hlen]

end Shape
