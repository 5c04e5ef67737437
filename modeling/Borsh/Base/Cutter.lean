import Borsh.Base.Reader

/-!
# Cutting a list into pieces

A `Cutter` cuts pieces off the front of a list of tokens, until it comes to its end or the list does. It refuses
nothing. It returns the pieces that it found and, when it came to its end, what is left of the list. `andThen`, `times`
and `counted` compose cutters; only `counted` looks at a piece, for the number of times that it goes on.

A reader of pieces checks a cutter (`Checks`) when it refuses the lists on which the cutter finds a piece that is not
valid, falls short on the others that end too early, and returns the pieces of the rest. The rules for `Checks` are one
for each combinator.
-/

/-- The pieces found, and what is left, unless the list ended first. -/
abbrev Cutter (β π : Type) := List β → List π × Option (List β)

namespace Cutter

variable {β π φ : Type}

def done : Cutter β π := fun bs => ([], some bs)

/-- One piece of `n` tokens. -/
def take (n : Nat) (piece : List β → π) : Cutter β π := fun bs =>
  if n ≤ bs.length then ([piece (bs.take n)], some (bs.drop n)) else ([], none)

/-- One piece of one token. -/
def item (piece : β → π) : Cutter β π
  | [] => ([], none)
  | b :: bs => ([piece b], some bs)

/-- The pieces of `c`, and then those of `d`. -/
def andThen (c d : Cutter β π) : Cutter β π := fun bs =>
  match c bs with
  | (ps, none) => (ps, none)
  | (ps, some rest) => (ps ++ (d rest).1, (d rest).2)

def times (c : Cutter β π) : Nat → Cutter β π
  | 0 => done
  | n + 1 => c.andThen (times c n)

/-- A piece of `n` tokens that says how often `c` follows. -/
def counted (n : Nat) (piece : List β → π) (count : List β → Nat) (c : Cutter β π) : Cutter β π := fun bs =>
  (take n piece).andThen (c.times (count (bs.take n))) bs

/-! ## Checking the pieces -/

/-- What is returned by a reader that refuses pieces that are not valid, before it falls short. -/
def check (valid : π → Bool) (short refused : φ) : List π × Option (List β) → Except φ (List π × List β)
  | (ps, rest?) =>
    if ∀ p ∈ ps, valid p = true then
      match rest? with
      | some rest => .ok (ps, rest)
      | none => .error short
    else .error refused

/-- The reader returns the pieces that the cutter finds, and checks them. -/
def Checks (valid : π → Bool) (short refused : φ) (r : Reader φ β (List π)) (c : Cutter β π) : Prop :=
  ∀ bs, r.run bs = check valid short refused (c bs)

section Checks

variable {valid : π → Bool} {short refused : φ}

theorem check_ok_iff {q : List π × Option (List β)} {ps : List π} {rest : List β} :
    check valid short refused q = .ok (ps, rest) ↔ q = (ps, some rest) ∧ ∀ p ∈ ps, valid p = true := by
  obtain ⟨qs, rest?⟩ := q
  simp only [check]
  split
  · rename_i hvalid
    cases rest? with
    | none => simp
    | some rest' =>
      constructor
      · intro h
        cases h
        exact ⟨rfl, hvalid⟩
      · rintro ⟨h, _⟩
        cases h
        rfl
  · rename_i hvalid
    constructor
    · intro h
      cases h
    · rintro ⟨h, hps⟩
      cases h
      exact absurd hps hvalid

theorem check_short_iff (hne : refused ≠ short) {q : List π × Option (List β)} :
    check valid short refused q = .error short ↔ q.2 = none ∧ ∀ p ∈ q.1, valid p = true := by
  obtain ⟨qs, rest?⟩ := q
  simp only [check]
  split
  · rename_i hvalid
    cases rest? with
    | none => simpa using hvalid
    | some rest => simp
  · rename_i hvalid
    simp [hne, hvalid]

theorem check_refused_iff (hne : refused ≠ short) {q : List π × Option (List β)} :
    check valid short refused q = .error refused ↔ ¬ ∀ p ∈ q.1, valid p = true := by
  obtain ⟨qs, rest?⟩ := q
  simp only [check]
  split
  · rename_i hvalid
    cases rest? with
    | none => simpa [hne.symm] using hvalid
    | some rest => simpa using hvalid
  · rename_i hvalid
    simp [hvalid]

theorem check_refused {ps : List π} (hps : ¬ ∀ p ∈ ps, valid p = true) (rest? : Option (List β)) :
    check valid short refused (ps, rest?) = .error refused := if_neg hps

/-- Pieces in front that are valid make no difference to the check. -/
theorem check_append {ps : List π} (hps : ∀ p ∈ ps, valid p = true) (q : List π × Option (List β)) :
    check valid short refused (ps ++ q.1, q.2) =
      match check valid short refused q with
      | .ok (qs, rest) => .ok (ps ++ qs, rest)
      | .error f => .error f := by
  obtain ⟨qs, rest?⟩ := q
  have hall : (∀ p ∈ ps ++ qs, valid p = true) ↔ ∀ p ∈ qs, valid p = true := by
    rw [List.forall_mem_append]
    exact and_iff_right hps
  simp only [check, hall]
  split
  · cases rest? <;> rfl
  · rfl

theorem checks_done : Checks valid short refused (.pure []) (done : Cutter β π) := fun bs => by
  simp [done, check]

theorem checks_take (n : Nat) (piece : List β → π) (h : ∀ bytes, valid (piece bytes) = true) :
    Checks valid short refused ((Reader.take short n).bind fun bytes => .pure [piece bytes]) (take n piece) := by
  intro bs
  by_cases hn : n ≤ bs.length
  · simp [Reader.bind, Reader.take, take, check, hn, h]
  · simp [Reader.bind, Reader.take, take, check, hn]

theorem checks_item (piece : β → π) (h : ∀ b, valid (piece b) = true) :
    Checks valid short refused ((Reader.item short).bind fun b => .pure [piece b]) (item piece)
  | [] => by simp [Reader.bind, Reader.item, item, check]
  | b :: bs => by simp [Reader.bind, Reader.item, item, check, h]

theorem Checks.andThen {r r' : Reader φ β (List π)} {c d : Cutter β π} (h : Checks valid short refused r c)
    (h' : Checks valid short refused r' d) :
    Checks valid short refused (r.bind fun ps => r'.bind fun qs => .pure (ps ++ qs)) (c.andThen d) := by
  intro bs
  have hr := h bs
  simp only [Cutter.andThen]
  cases hc : c bs with
  | mk ps rest? =>
    rw [hc] at hr
    by_cases hps : ∀ p ∈ ps, valid p = true
    · cases rest? with
      | none =>
        rw [check, if_pos hps] at hr
        rw [Reader.run_bind_error hr]
        exact (if_pos hps).symm
      | some rest =>
        rw [check, if_pos hps] at hr
        rw [Reader.run_bind_ok hr, check_append hps]
        cases hd : check valid short refused (d rest) with
        | error f => exact Reader.run_bind_error ((h' rest).trans hd) _
        | ok q => exact Reader.run_bind_ok ((h' rest).trans hd) _
    · -- what is found behind a piece that is refused does not matter
      rw [check_refused hps] at hr
      rw [Reader.run_bind_error hr]
      cases rest? with
      | none => exact (check_refused hps none).symm
      | some rest => exact (check_refused (fun hall => hps (List.forall_mem_append.mp hall).1) _).symm

theorem Checks.times {r : Reader φ β (List π)} {c : Cutter β π} (h : Checks valid short refused r c) :
    ∀ n, Checks valid short refused ((Reader.times r n).bind fun pss => .pure pss.flatten) (c.times n)
  | 0 => checks_done
  | n + 1 => by
    have hstep := h.andThen (h.times n)
    simp only [Reader.times, Reader.bind_assoc, Reader.pure_bind, List.flatten_cons] at hstep ⊢
    exact hstep

/-- The pieces behind a count are checked as often as it says. -/
theorem Checks.counted {r : Reader φ β (List π)} {c : Cutter β π} (h : Checks valid short refused r c) (n : Nat)
    (piece : List β → π) (hpiece : ∀ bytes, valid (piece bytes) = true) (count : List β → Nat) :
    Checks valid short refused
      ((Reader.take short n).bind fun bytes => (Reader.times r (count bytes)).bind fun pss =>
        .pure (piece bytes :: pss.flatten)) (counted n piece count c) := by
  intro bs
  have hstep := (checks_take n piece hpiece).andThen (h.times (count (bs.take n))) bs
  simp only [Reader.bind_assoc, Reader.pure_bind, List.singleton_append] at hstep
  rw [Cutter.counted, ← hstep]
  by_cases hn : n ≤ bs.length
  · have htake : (Reader.take short n).run bs = .ok (bs.take n, bs.drop n) := if_pos hn
    rw [Reader.run_bind_ok htake, Reader.run_bind_ok htake]
  · have htake : (Reader.take short n).run bs = .error short := if_neg hn
    rw [Reader.run_bind_error htake, Reader.run_bind_error htake]

end Checks

end Cutter
