import Borsh.Base.PrefixCode
import Borsh.Base.Reader

/-!
# Shapes of self-delimiting formats

A `Shape` says how the tokens of a format are cut up, and not what they mean: tokens that may be anything, flags, and
counts in front of a part that is repeated so often. `Shape.Fills` are the lists of tokens of a shape, and `Shape.skip`
is the reader that goes over one of them (`yields_skip_iff`).

Shapes are ordered: a flag is allowed wherever a token is. For normal shapes this order is the inclusion between the
lists of tokens that fill them (`le_iff_fills`), so that shapes which are filled by the same lists are the same.
-/

/-- What the tokens of a format are: which of them are flags, and what `width` of them count. The other fields are the
tokens that tell shapes apart. -/
structure Alphabet (β : Type) where
  isFlag : β → Bool
  width : Nat
  count : List β → Nat
  zero : β
  one : β
  other : β
  unit : List β
  width_pos : 0 < width
  isFlag_zero : isFlag zero = true
  isFlag_one : isFlag one = true
  isFlag_other : isFlag other = false
  count_zeros : count (List.replicate width zero) = 0
  count_one_pos : 0 < count (one :: List.replicate (width - 1) zero)
  length_unit : unit.length = width
  count_unit : count unit = 1

inductive Shape where
  | done
  | token (rest : Shape)
  | flag (rest : Shape)
  | counted (body rest : Shape)
  deriving DecidableEq, Repr

namespace Shape

variable {β φ : Type}

/-! ## The order -/

/-- The second shape is the first one, with some flags replaced by tokens. -/
inductive Le : Shape → Shape → Prop
  | done : Le .done .done
  | token {s s' : Shape} : Le s s' → Le (.token s) (.token s')
  | flag {s s' : Shape} : Le s s' → Le (.flag s) (.flag s')
  | widen {s s' : Shape} : Le s s' → Le (.flag s) (.token s')
  | counted {body body' s s' : Shape} : Le body body' → Le s s' → Le (.counted body s) (.counted body' s')

theorem le_refl : ∀ s : Shape, Le s s
  | .done => .done
  | .token s => .token s.le_refl
  | .flag s => .flag s.le_refl
  | .counted body s => .counted body.le_refl s.le_refl

theorem Le.trans {s s' s'' : Shape} (h : Le s s') (h' : Le s' s'') : Le s s'' := by
  induction h generalizing s'' with
  | done => exact h'
  | token _ ih =>
    cases h' with
    | token h' => exact .token (ih h')
  | flag _ ih =>
    cases h' with
    | flag h' => exact .flag (ih h')
    | widen h' => exact .widen (ih h')
  | widen _ ih =>
    cases h' with
    | token h' => exact .widen (ih h')
  | counted _ _ ihb ih =>
    cases h' with
    | counted hb' h' => exact .counted (ihb hb') (ih h')

theorem Le.antisymm {s s' : Shape} (h : Le s s') (h' : Le s' s) : s = s' := by
  induction h with
  | done => rfl
  | token _ ih =>
    cases h' with
    | token h' => rw [ih h']
  | flag _ ih =>
    cases h' with
    | flag h' => rw [ih h']
  | widen _ _ => cases h'
  | counted _ _ ihb ih =>
    cases h' with
    | counted hb' h' => rw [ihb hb', ih h']

instance : PartialOrder Shape where
  le := Le
  le_refl := le_refl
  le_trans _ _ _ := Le.trans
  le_antisymm _ _ := Le.antisymm

theorem token_le_iff {s s' : Shape} : Shape.token s ≤ .token s' ↔ s ≤ s' := by
  constructor
  · intro h
    cases h with
    | token h => exact h
  · exact Le.token

theorem flag_le_iff {s s' : Shape} : Shape.flag s ≤ .flag s' ↔ s ≤ s' := by
  constructor
  · intro h
    cases h with
    | flag h => exact h
  · exact Le.flag

theorem flag_le_token_iff {s s' : Shape} : Shape.flag s ≤ .token s' ↔ s ≤ s' := by
  constructor
  · intro h
    cases h with
    | widen h => exact h
  · exact Le.widen

theorem counted_le_iff {body body' s s' : Shape} :
    Shape.counted body s ≤ .counted body' s' ↔ body ≤ body' ∧ s ≤ s' := by
  constructor
  · intro h
    cases h with
    | counted hb h => exact ⟨hb, h⟩
  · intro h
    exact Le.counted h.1 h.2

instance decidableLe : (s s' : Shape) → Decidable (s ≤ s')
  | .done, .done => isTrue .done
  | .token s, .token s' => @decidable_of_iff' _ _ token_le_iff (decidableLe s s')
  | .flag s, .flag s' => @decidable_of_iff' _ _ flag_le_iff (decidableLe s s')
  | .flag s, .token s' => @decidable_of_iff' _ _ flag_le_token_iff (decidableLe s s')
  | .counted body s, .counted body' s' =>
    @decidable_of_iff' _ _ counted_le_iff (@instDecidableAnd _ _ (decidableLe body body') (decidableLe s s'))
  | .done, .token _ | .done, .flag _ | .done, .counted _ _ => isFalse nofun
  | .token _, .done | .token _, .flag _ | .token _, .counted _ _ => isFalse nofun
  | .flag _, .done | .flag _, .counted _ _ => isFalse nofun
  | .counted _ _, .done | .counted _ _, .token _ | .counted _ _, .flag _ => isFalse nofun

example : Shape.counted (.flag .done) (.token .done) ≤ Shape.counted (.token .done) (.token .done) := by decide

/-! ## What fills a shape -/

/-- `n` lists one behind the other, and `P` holds of each. -/
def Repeated (P : List β → Prop) : Nat → List β → Prop
  | 0, us => us = []
  | n + 1, us => ∃ vs ws, us = vs ++ ws ∧ P vs ∧ Repeated P n ws

section Fills

variable (A : Alphabet β)

/-- The lists of tokens that are cut up as the shape says. -/
def Fills : Shape → List β → Prop
  | .done, us => us = []
  | .token s, us => ∃ b vs, us = b :: vs ∧ s.Fills vs
  | .flag s, us => ∃ b vs, us = b :: vs ∧ A.isFlag b = true ∧ s.Fills vs
  | .counted body s, us => ∃ p vs ws, us = p ++ (vs ++ ws) ∧ p.length = A.width ∧
      Repeated body.Fills (A.count p) vs ∧ s.Fills ws

/-- The number of tokens, when all counts are zero. -/
def size : Shape → Nat
  | .done => 0
  | .token s | .flag s => s.size + 1
  | .counted _ s => A.width + s.size

/-- No body is empty: a count in front of nothing is just its tokens. -/
def Normal : Shape → Prop
  | .done => True
  | .token s | .flag s => s.Normal
  | .counted body s => body ≠ .done ∧ body.Normal ∧ s.Normal

end Fills

variable {A : Alphabet β}

theorem Repeated.prefixCode {P : List β → Prop} (h : PrefixCode P fun us => us) :
    ∀ n, PrefixCode (Repeated P n) fun us => us
  | 0 => by
    rintro _ _ rfl rfl x y heq
    exact ⟨rfl, heq⟩
  | n + 1 => by
    rintro _ _ ⟨vs, ws, rfl, hvs, hws⟩ ⟨vs', ws', rfl, hvs', hws'⟩ x y heq
    simp only [List.append_assoc] at heq
    obtain ⟨rfl, hrest⟩ := h vs vs' hvs hvs' _ _ heq
    obtain ⟨rfl, hxy⟩ := Repeated.prefixCode h n ws ws' hws hws' x y hrest
    exact ⟨rfl, hxy⟩

/-- **What fills a shape can be split off in one way only.** -/
theorem prefixCode : ∀ s : Shape, PrefixCode (s.Fills A) fun us => us
  | .done => by
    rintro _ _ rfl rfl x y heq
    exact ⟨rfl, heq⟩
  | .token s => by
    rintro _ _ ⟨b, vs, rfl, hvs⟩ ⟨b', vs', rfl, hvs'⟩ x y heq
    obtain ⟨rfl, hrest⟩ := List.cons.inj heq
    obtain ⟨rfl, hxy⟩ := s.prefixCode vs vs' hvs hvs' x y hrest
    exact ⟨rfl, hxy⟩
  | .flag s => by
    rintro _ _ ⟨b, vs, rfl, _, hvs⟩ ⟨b', vs', rfl, _, hvs'⟩ x y heq
    obtain ⟨rfl, hrest⟩ := List.cons.inj heq
    obtain ⟨rfl, hxy⟩ := s.prefixCode vs vs' hvs hvs' x y hrest
    exact ⟨rfl, hxy⟩
  | .counted body s => by
    rintro _ _ ⟨p, vs, ws, rfl, hp, hvs, hws⟩ ⟨p', vs', ws', rfl, hp', hvs', hws'⟩ x y heq
    simp only [List.append_assoc] at heq
    obtain ⟨rfl, hrest⟩ := List.append_inj heq (hp.trans hp'.symm)
    obtain ⟨rfl, htail⟩ := Repeated.prefixCode body.prefixCode _ vs vs' hvs hvs' _ _ hrest
    obtain ⟨rfl, hxy⟩ := s.prefixCode ws ws' hws hws' x y htail
    exact ⟨rfl, hxy⟩

/-! ## Lists of zeros -/

theorem fills_zeros : ∀ s : Shape, s.Fills A (List.replicate (s.size A) A.zero)
  | .done => rfl
  | .token s => ⟨A.zero, _, rfl, s.fills_zeros⟩
  | .flag s => ⟨A.zero, _, rfl, A.isFlag_zero, s.fills_zeros⟩
  | .counted body s => by
    refine ⟨List.replicate A.width A.zero, [], List.replicate (s.size A) A.zero, ?_, ?_, ?_, s.fills_zeros⟩
    · simp [size]
    · exact List.length_replicate
    · rw [A.count_zeros]
      rfl

/-- Only one list of zeros fills a shape. -/
theorem size_of_fills {s : Shape} {n : Nat} (h : s.Fills A (List.replicate n A.zero)) : n = s.size A := by
  have hswap : List.replicate n A.zero ++ List.replicate (s.size A) A.zero =
      List.replicate (s.size A) A.zero ++ List.replicate n A.zero := by
    rw [List.replicate_append_replicate, List.replicate_append_replicate, Nat.add_comm]
  have hlen := congrArg List.length (s.prefixCode _ _ h s.fills_zeros _ _ hswap).1
  simpa using hlen

theorem eq_done_of_size {s : Shape} (h : s.size A = 0) : s = .done := by
  have hwidth := A.width_pos
  cases s with
  | done => rfl
  | token s => cases h
  | flag s => cases h
  | counted body s =>
    simp only [size] at h
    omega

theorem eq_done_of_fills {s : Shape} (h : s.Fills A []) : s = .done :=
  eq_done_of_size (size_of_fills (n := 0) h).symm

/-! ## A one in front of zeros -/

theorem repeated_zeros {s : Shape} : ∀ n, Repeated (s.Fills A) n (List.replicate (n * s.size A) A.zero)
  | 0 => by
    rw [Nat.zero_mul]
    rfl
  | n + 1 => by
    refine ⟨List.replicate (s.size A) A.zero, _, ?_, s.fills_zeros, repeated_zeros n⟩
    rw [List.replicate_append_replicate, Nat.succ_mul, Nat.add_comm]

/-- A shape that is not empty is filled by a one and some zeros. -/
theorem exists_one : ∀ {s : Shape}, s ≠ .done → ∃ n, s.Fills A (A.one :: List.replicate n A.zero)
  | .done, h => absurd rfl h
  | .token s, _ => ⟨s.size A, A.one, _, rfl, s.fills_zeros⟩
  | .flag s, _ => ⟨s.size A, A.one, _, rfl, A.isFlag_one, s.fills_zeros⟩
  | .counted body s, _ => by
    refine ⟨A.width - 1 + (A.count (A.one :: List.replicate (A.width - 1) A.zero) * body.size A + s.size A),
      A.one :: List.replicate (A.width - 1) A.zero, _, _, ?_, ?_, repeated_zeros _, s.fills_zeros⟩
    · simp
    · have hwidth := A.width_pos
      simp only [List.length_cons, List.length_replicate]
      omega

theorem Repeated.nil {P : List β → Prop} {n : Nat} (hn : 0 < n) (h : Repeated P n []) : P [] := by
  cases n with
  | zero => exact absurd hn (Nat.lt_irrefl 0)
  | succ n =>
    obtain ⟨vs, ws, hsplit, hvs, _⟩ := h
    obtain ⟨rfl, rfl⟩ := List.append_eq_nil_iff.mp hsplit.symm
    exact hvs

theorem token_one {s : Shape} {n : Nat} (h : (Shape.token s).Fills A (A.one :: List.replicate n A.zero)) :
    n + 1 = (Shape.token s).size A := by
  obtain ⟨b, vs, heq, hvs⟩ := h
  obtain ⟨rfl, rfl⟩ := List.cons.inj heq
  rw [size, size_of_fills hvs]

theorem flag_one {s : Shape} {n : Nat} (h : (Shape.flag s).Fills A (A.one :: List.replicate n A.zero)) :
    n + 1 = (Shape.flag s).size A := by
  obtain ⟨b, vs, heq, _, hvs⟩ := h
  obtain ⟨rfl, rfl⟩ := List.cons.inj heq
  rw [size, size_of_fills hvs]

/-- A count that is not zero takes more than the size. -/
theorem counted_one {body s : Shape} (hbody : body ≠ .done) {n : Nat}
    (h : (Shape.counted body s).Fills A (A.one :: List.replicate n A.zero)) :
    (Shape.counted body s).size A < n + 1 := by
  have hwidth := A.width_pos
  obtain ⟨p, vs, ws, heq, hp, hvs, hws⟩ := h
  cases p with
  | nil =>
    simp only [List.length_nil] at hp
    omega
  | cons b p =>
    obtain ⟨rfl, hzeros⟩ := List.cons.inj heq
    obtain ⟨hlen, hp', hrest⟩ := List.replicate_eq_append_iff.mp hzeros
    obtain ⟨hlen', hvs', hws'⟩ := List.replicate_eq_append_iff.mp hrest.symm
    rw [hws'] at hws
    have hsize := size_of_fills hws
    simp only [List.length_cons] at hp
    -- the count is not zero, so there is something to repeat
    have hvs_ne : vs.length ≠ 0 := fun h0 => by
      obtain rfl := List.eq_nil_of_length_eq_zero h0
      have hcount : 0 < A.count (A.one :: p) := by
        have hpl : p.length = A.width - 1 := by omega
        rw [hp', hpl]
        exact A.count_one_pos
      exact hbody (eq_done_of_fills (Repeated.nil hcount hvs))
    rw [size]
    omega

/-! ## Inclusion -/

/-- What fills `s`, with `k` zeros behind it, starts with something that fills `s'`, and `Q` holds of the rest. -/
def Covers (A : Alphabet β) (Q : List β → Prop) (k : Nat) (s s' : Shape) : Prop :=
  ∀ us, s.Fills A us → ∃ vs ws, us ++ List.replicate k A.zero = vs ++ ws ∧ s'.Fills A vs ∧ Q ws

section Covers

variable {Q : List β → Prop} {k : Nat} {s s' : Shape}

theorem Covers.size_eq (hQ : ∀ j, Q (List.replicate j A.zero) → j = k) (h : Covers A Q k s s') :
    s.size A = s'.size A := by
  obtain ⟨vs, ws, heq, hvs, hws⟩ := h _ s.fills_zeros
  rw [List.replicate_append_replicate] at heq
  obtain ⟨hlen, hvs', hws'⟩ := List.replicate_eq_append_iff.mp heq
  rw [hvs'] at hvs
  rw [hws'] at hws
  have hsize := size_of_fills hvs
  have hk := hQ _ hws
  omega

theorem Covers.one (hQ : ∀ j, Q (List.replicate j A.zero) → j = k) (h : Covers A Q k s s') (hs' : s' ≠ .done)
    {n : Nat} (hone : s.Fills A (A.one :: List.replicate n A.zero)) :
    s'.Fills A (A.one :: List.replicate n A.zero) := by
  obtain ⟨vs, ws, heq, hvs, hws⟩ := h _ hone
  rw [List.cons_append, List.replicate_append_replicate] at heq
  cases vs with
  | nil => exact absurd (eq_done_of_fills hvs) hs'
  | cons b vs =>
    obtain ⟨rfl, hzeros⟩ := List.cons.inj heq
    obtain ⟨hlen, hvs', hws'⟩ := List.replicate_eq_append_iff.mp hzeros
    rw [hws'] at hws
    have hk := hQ _ hws
    have hn : vs.length = n := by omega
    rw [hvs', hn] at hvs
    exact hvs

/-- What stands behind a first token. -/
theorem Covers.behind {r r' : Shape} {b : β} (h : Covers A Q k s s') (hs : ∀ us, r.Fills A us → s.Fills A (b :: us))
    (hs' : ∀ us, s'.Fills A us → ∃ c vs, us = c :: vs ∧ r'.Fills A vs) : Covers A Q k r r' := by
  intro us hus
  obtain ⟨vs, ws, heq, hvs, hws⟩ := h _ (hs us hus)
  obtain ⟨c, vs', rfl, hvs'⟩ := hs' vs hvs
  obtain ⟨_, hrest⟩ := List.cons.inj heq
  exact ⟨vs', ws, hrest, hvs', hws⟩

/-- What stands behind a count of zero. -/
theorem Covers.behind_zeros {body body' r r' : Shape}
    (h : Covers A Q k (.counted body r) (.counted body' r')) : Covers A Q k r r' := by
  intro us hus
  have hnone : Repeated (body.Fills A) (A.count (List.replicate A.width A.zero)) [] := by
    rw [A.count_zeros]
    rfl
  obtain ⟨_, ws, heq, ⟨p, xs, ys, rfl, hp, hxs, hys⟩, hws⟩ :=
    h _ ⟨List.replicate A.width A.zero, [], us, rfl, List.length_replicate, hnone, hus⟩
  simp only [List.nil_append, List.append_assoc] at heq
  obtain ⟨rfl, hrest⟩ := List.append_inj heq (List.length_replicate.trans hp.symm)
  rw [A.count_zeros] at hxs
  obtain rfl : xs = [] := hxs
  exact ⟨ys, ws, hrest, hys, hws⟩

/-- What stands behind a count of one, with the rest of the shape in the part that follows. -/
theorem Covers.body {body body' r r' : Shape} (h : Covers A Q k (.counted body r) (.counted body' r')) :
    Covers A (fun us => ∃ ys ws, us = ys ++ ws ∧ r'.Fills A ys ∧ Q ws) (r.size A + k) body body' := by
  intro us hus
  have honce : Repeated (body.Fills A) (A.count A.unit) us := by
    rw [A.count_unit]
    exact ⟨us, [], (List.append_nil us).symm, hus, rfl⟩
  obtain ⟨_, ws, heq, ⟨p, xs, ys, rfl, hp, hxs, hys⟩, hws⟩ :=
    h _ ⟨A.unit, us, _, rfl, A.length_unit, honce, r.fills_zeros⟩
  simp only [List.append_assoc] at heq
  obtain ⟨rfl, hrest⟩ := List.append_inj heq (A.length_unit.trans hp.symm)
  rw [A.count_unit] at hxs
  obtain ⟨vs, _, rfl, hvs, rfl⟩ := hxs
  rw [List.replicate_append_replicate, List.append_nil] at hrest
  exact ⟨vs, ys ++ ws, hrest, hvs, ys, ws, rfl, hys, hws⟩

/-- The zeros that can stand behind a body. -/
theorem Covers.behind_body (hQ : ∀ j, Q (List.replicate j A.zero) → j = k) {body body' r r' : Shape}
    (h : Covers A Q k (.counted body r) (.counted body' r')) (j : Nat)
    (hj : ∃ ys ws, List.replicate j A.zero = ys ++ ws ∧ r'.Fills A ys ∧ Q ws) : j = r.size A + k := by
  obtain ⟨ys, ws, heq, hys, hws⟩ := hj
  obtain ⟨hlen, hys', hws'⟩ := List.replicate_eq_append_iff.mp heq
  rw [hys'] at hys
  rw [hws'] at hws
  have hys_size := size_of_fills hys
  have hws_size := hQ _ hws
  have hrest_size : r.size A = r'.size A := h.behind_zeros.size_eq hQ
  omega

/-- There is a token that no flag is. -/
theorem not_covers_flag {r r' : Shape} : ¬ Covers A Q k (.token r) (.flag r') := by
  intro h
  obtain ⟨_, ws, heq, ⟨b, vs, rfl, hb, _⟩, _⟩ := h _ ⟨A.other, _, rfl, r.fills_zeros⟩
  obtain ⟨rfl, _⟩ := List.cons.inj heq
  rw [A.isFlag_other] at hb
  cases hb

/-- A one may count something, but a token or a flag counts nothing. -/
theorem not_covers_counted (hQ : ∀ j, Q (List.replicate j A.zero) → j = k) {body r : Shape}
    (hne : s ≠ .done) (hone : ∀ n, s.Fills A (A.one :: List.replicate n A.zero) → n + 1 = s.size A)
    (hbody : body ≠ .done) : ¬ Covers A Q k s (.counted body r) := by
  intro h
  obtain ⟨n, hn⟩ := exists_one hne
  have hexact := hone n hn
  have hmore := counted_one hbody (h.one hQ nofun hn)
  have hsize := h.size_eq hQ
  omega

theorem counted_not_covers (hQ : ∀ j, Q (List.replicate j A.zero) → j = k) {body r : Shape}
    (hbody : body ≠ .done) (hne : s' ≠ .done)
    (hone : ∀ n, s'.Fills A (A.one :: List.replicate n A.zero) → n + 1 = s'.size A) :
    ¬ Covers A Q k (.counted body r) s' := by
  intro h
  obtain ⟨n, hn⟩ : ∃ n, (Shape.counted body r).Fills A (A.one :: List.replicate n A.zero) := exists_one nofun
  have hexact := hone n (h.one hQ hne hn)
  have hmore := counted_one hbody hn
  have hsize := h.size_eq hQ
  omega

end Covers

/-- A shape that covers another one is above it, whatever is behind the two. -/
theorem le_of_covers : ∀ {s s' : Shape}, s.Normal → s'.Normal → ∀ {Q : List β → Prop} {k : Nat},
    (∀ j, Q (List.replicate j A.zero) → j = k) → Covers A Q k s s' → s ≤ s' := by
  intro s
  induction s with
  | done =>
    intro s' _ _ Q k hQ h
    rw [eq_done_of_size (h.size_eq hQ).symm]
  | token s ih =>
    intro s' hs hs' Q k hQ h
    cases s' with
    | done => cases h.size_eq hQ
    | token s' =>
      have hbehind : Covers A Q k s s' := h.behind (b := A.zero) (fun us hus => ⟨_, us, rfl, hus⟩) fun us hus => hus
      exact Le.token (ih hs hs' hQ hbehind)
    | flag s' => exact absurd h not_covers_flag
    | counted body' s' => exact absurd h (not_covers_counted hQ nofun (fun n => token_one) hs'.1)
  | flag s ih =>
    intro s' hs hs' Q k hQ h
    have hzero : ∀ us, s.Fills A us → (Shape.flag s).Fills A (A.zero :: us) := fun us hus =>
      ⟨A.zero, us, rfl, A.isFlag_zero, hus⟩
    cases s' with
    | done => cases h.size_eq hQ
    | token s' => exact Le.widen (ih hs hs' hQ (h.behind hzero fun us hus => hus))
    | flag s' =>
      refine Le.flag (ih hs hs' hQ (h.behind hzero fun us hus => ?_))
      obtain ⟨b, vs, heq, _, hvs⟩ := hus
      exact ⟨b, vs, heq, hvs⟩
    | counted body' s' => exact absurd h (not_covers_counted hQ nofun (fun n => flag_one) hs'.1)
  | counted body s ihb ih =>
    intro s' hs hs' Q k hQ h
    cases s' with
    | done => cases eq_done_of_size (h.size_eq hQ)
    | token s' => exact absurd h (counted_not_covers hQ hs.1 nofun fun n => token_one)
    | flag s' => exact absurd h (counted_not_covers hQ hs.1 nofun fun n => flag_one)
    | counted body' s' =>
      have hbody : body ≤ body' := ihb hs.2.1 hs'.2.1 (h.behind_body hQ) h.body
      exact Le.counted hbody (ih hs.2.2 hs'.2.2 hQ h.behind_zeros)

theorem Repeated.mono {P P' : List β → Prop} (h : ∀ us, P us → P' us) :
    ∀ {n : Nat} {us : List β}, Repeated P n us → Repeated P' n us
  | 0, _, hus => hus
  | _ + 1, _, ⟨vs, ws, heq, hvs, hws⟩ => ⟨vs, ws, heq, h vs hvs, Repeated.mono h hws⟩

theorem Le.fills {s s' : Shape} (h : Le s s') : ∀ us, s.Fills A us → s'.Fills A us := by
  induction h with
  | done => exact fun _ hus => hus
  | token _ ih =>
    rintro _ ⟨b, vs, rfl, hvs⟩
    exact ⟨b, vs, rfl, ih vs hvs⟩
  | flag _ ih =>
    rintro _ ⟨b, vs, rfl, hb, hvs⟩
    exact ⟨b, vs, rfl, hb, ih vs hvs⟩
  | widen _ ih =>
    rintro _ ⟨b, vs, rfl, _, hvs⟩
    exact ⟨b, vs, rfl, ih vs hvs⟩
  | counted _ _ ihb ih =>
    rintro _ ⟨p, vs, ws, rfl, hp, hvs, hws⟩
    exact ⟨p, vs, ws, rfl, hp, hvs.mono ihb, ih ws hws⟩

/-- **The order of normal shapes is the inclusion of what fills them.** -/
theorem le_iff_fills (A : Alphabet β) {s s' : Shape} (hs : s.Normal) (hs' : s'.Normal) :
    s ≤ s' ↔ ∀ us, s.Fills A us → s'.Fills A us := by
  constructor
  · exact Le.fills
  · intro h
    refine le_of_covers (A := A) (Q := (· = [])) (k := 0) hs hs' (fun j hj => ?_) fun us hus => ?_
    · exact List.replicate_eq_nil_iff _ |>.mp hj
    · exact ⟨us, [], rfl, h us hus, rfl⟩

/-! ## The reader of a shape -/

/-- Go over what fills the shape. A flag that is not allowed is the failure `bad`. -/
def skip (A : Alphabet β) (short bad : φ) : Shape → Reader φ β Unit
  | .done => .pure ()
  | .token s => (Reader.item short).bind fun _ => s.skip A short bad
  | .flag s => (Reader.item short).bind fun b => if A.isFlag b then s.skip A short bad else .fail bad
  | .counted body s => (Reader.take short A.width).bind fun p =>
      (Reader.times (body.skip A short bad) (A.count p)).bind fun _ => s.skip A short bad

theorem yields_times_iff {P : List β → Prop} {r : Reader φ β Unit} (h : ∀ us, r.Yields us () ↔ P us) :
    ∀ (n : Nat) (us : List β), (∃ as, (Reader.times r n).Yields us as) ↔ Repeated P n us
  | 0, us => by
    constructor
    · rintro ⟨as, hus⟩
      exact (Reader.yields_pure_iff.mp hus).1
    · rintro rfl
      exact ⟨[], Reader.yields_pure []⟩
  | n + 1, us => by
    constructor
    · rintro ⟨as, hus⟩
      obtain ⟨vs, _, a, rfl, hvs, htail⟩ := Reader.yields_bind_iff.mp hus
      obtain ⟨ws, _, as', rfl, hws, hend⟩ := Reader.yields_bind_iff.mp htail
      obtain ⟨rfl, _⟩ := Reader.yields_pure_iff.mp hend
      rw [List.append_nil]
      exact ⟨vs, ws, rfl, (h vs).mp hvs, (yields_times_iff h n ws).mp ⟨as', hws⟩⟩
    · rintro ⟨vs, ws, rfl, hvs, hws⟩
      obtain ⟨as, has⟩ := (yields_times_iff h n ws).mpr hws
      exact ⟨() :: as, ((h vs).mpr hvs).bind (has.map (() :: ·))⟩

/-- **The reader of a shape takes what fills it.** -/
theorem yields_skip_iff (A : Alphabet β) (short bad : φ) : ∀ (s : Shape) (us : List β),
    (s.skip A short bad).Yields us () ↔ s.Fills A us
  | .done, us => by
    constructor
    · intro h
      exact (Reader.yields_pure_iff.mp h).1
    · rintro rfl
      exact Reader.yields_pure ()
  | .token s, us => by
    constructor
    · intro h
      obtain ⟨_, vs, b, rfl, hb, hvs⟩ := Reader.yields_bind_iff.mp h
      obtain rfl := Reader.yields_item_iff.mp hb
      exact ⟨b, vs, rfl, (yields_skip_iff A short bad s vs).mp hvs⟩
    · rintro ⟨b, vs, rfl, hvs⟩
      exact (Reader.yields_item short b).bind ((yields_skip_iff A short bad s vs).mpr hvs)
  | .flag s, us => by
    constructor
    · intro h
      obtain ⟨_, vs, b, rfl, hb, hvs⟩ := Reader.yields_bind_iff.mp h
      obtain rfl := Reader.yields_item_iff.mp hb
      by_cases hflag : A.isFlag b = true
      · rw [if_pos hflag] at hvs
        exact ⟨b, vs, rfl, hflag, (yields_skip_iff A short bad s vs).mp hvs⟩
      · rw [if_neg hflag] at hvs
        cases hvs []
    · rintro ⟨b, vs, rfl, hb, hvs⟩
      refine (Reader.yields_item short b).bind ?_
      rw [if_pos hb]
      exact (yields_skip_iff A short bad s vs).mpr hvs
  | .counted body s, us => by
    have htimes := yields_times_iff (yields_skip_iff A short bad body)
    constructor
    · intro h
      obtain ⟨p, _, p', rfl, hp, hbody⟩ := Reader.yields_bind_iff.mp h
      obtain ⟨vs, ws, as, rfl, hvs, hws⟩ := Reader.yields_bind_iff.mp hbody
      obtain ⟨hpp, hlen⟩ := Reader.run_take_eq_ok.mp (hp [])
      rw [List.append_nil, List.append_nil] at hpp
      obtain rfl := hpp
      exact ⟨p, vs, ws, rfl, hlen, (htimes _ vs).mp ⟨as, hvs⟩, (yields_skip_iff A short bad s ws).mp hws⟩
    · rintro ⟨p, vs, ws, rfl, hlen, hvs, hws⟩
      obtain ⟨as, has⟩ := (htimes _ vs).mpr hvs
      have htake := Reader.yields_take short p
      rw [hlen] at htake
      exact htake.bind (has.bind ((yields_skip_iff A short bad s ws).mpr hws))

/-! ## Building shapes -/

/-- `n` tokens, and then `s`. -/
def tokens : Nat → Shape → Shape
  | 0, s => s
  | n + 1, s => .token (tokens n s)

/-- A count of `width` tokens in front of `body`, and then `s`. -/
def repeated (width : Nat) : Shape → Shape → Shape
  | .done, s => tokens width s
  | body, s => .counted body s

theorem normal_tokens {s : Shape} (h : s.Normal) : ∀ n, (tokens n s).Normal
  | 0 => h
  | n + 1 => normal_tokens h n

theorem normal_repeated {body s : Shape} (hbody : body.Normal) (h : s.Normal) (width : Nat) :
    (repeated width body s).Normal := by
  cases body with
  | done => exact normal_tokens h width
  | token body => exact ⟨nofun, hbody, h⟩
  | flag body => exact ⟨nofun, hbody, h⟩
  | counted body body' => exact ⟨nofun, hbody, h⟩

theorem size_tokens (A : Alphabet β) (s : Shape) : ∀ n, (tokens n s).size A = n + s.size A
  | 0 => (Nat.zero_add _).symm
  | n + 1 => by
    rw [tokens, size, size_tokens A s n]
    omega

theorem size_repeated (A : Alphabet β) (body s : Shape) : (repeated A.width body s).size A = A.width + s.size A := by
  cases body with
  | done => exact size_tokens A s A.width
  | token body => rfl
  | flag body => rfl
  | counted body body' => rfl

section Skip

variable {A : Alphabet β} {short bad : φ}

theorem skip_tokens (s : Shape) : ∀ n,
    (tokens n s).skip A short bad = (Reader.take short n).bind fun _ => s.skip A short bad
  | 0 => by
    rw [tokens, Reader.take_zero, Reader.pure_bind]
  | n + 1 => by
    rw [tokens, skip, skip_tokens s n, Reader.take_succ, Reader.bind_assoc]
    simp only [Reader.bind_assoc, Reader.pure_bind]

theorem skip_repeated (body s : Shape) :
    (repeated A.width body s).skip A short bad = (Reader.take short A.width).bind fun p =>
      (Reader.times (body.skip A short bad) (A.count p)).bind fun _ => s.skip A short bad := by
  cases body with
  | done =>
    rw [repeated, skip_tokens]
    simp only [skip, Reader.times_pure, Reader.pure_bind]
  | token body => rfl
  | flag body => rfl
  | counted body body' => rfl

/-- The elements of a vector, each of which is read as `f` says. -/
theorem skip_iterate {α : Type} {r : Reader φ β α} {f : Shape → Shape}
    (h : ∀ s : Shape, (r.bind fun _ => s.skip A short bad) = (f s).skip A short bad) : ∀ (n : Nat) (s : Shape),
      ((Reader.vector r n).bind fun _ => s.skip A short bad) = (f^[n] s).skip A short bad
  | 0, _ => Reader.pure_bind _ _
  | n + 1, s => by
    rw [Function.iterate_succ_apply', ← h, ← skip_iterate h n s]
    simp only [Reader.vector, Reader.bind_assoc, Reader.pure_bind]

theorem skip_times {α : Type} {r : Reader φ β α} {body : Shape}
    (h : (r.bind fun _ => .pure ()) = body.skip A short bad) (s : Shape) :
    ((Reader.take short A.width).bind fun p => (Reader.times r (A.count p)).bind fun _ => s.skip A short bad) =
      (repeated A.width body s).skip A short bad := by
  rw [skip_repeated, ← h]
  simp only [← Reader.times_forget r]

end Skip

end Shape
