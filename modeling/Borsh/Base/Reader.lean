import Borsh.Base.Outcome
import Mathlib.Data.Vector.Basic

/-!
# Self-delimiting readers

A `Reader` takes a value off the front of a list of tokens or fails. It carries the proof that a value it returns is
decided by the tokens it took: the same tokens in front of any other rest give the same value (`local_run`).

`Yields r used a` says that `used` is exactly what `r` takes to return `a`. The rules for `bind`, `times` and `vector`
compose it. `Streaming short r` says that `short` is the failure of an input that ends too early and of no other
(`short_iff`). `Composes` is what such properties have in common. `InStep R r r'` says that two readers take the same
tokens and fail alike, and relates what they return. `runAt` runs a reader at a position of a fixed memory; loops of
commands whose bodies read are runs of `times` and `vector` (`times_runAt`, `updateEach_runAt`).
-/

/-- A reader, with the proof that what it returns is decided by the tokens it takes. -/
structure Reader (φ β α : Type) where
  run : List β → Except φ (α × List β)
  local_run : ∀ {bs : List β} {a : α} {rest : List β}, run bs = .ok (a, rest) →
    ∃ used, bs = used ++ rest ∧ ∀ rest', run (used ++ rest') = .ok (a, rest')

namespace Reader

variable {φ β α γ : Type}

/-- Readers that run alike are the same. -/
theorem ext {r r' : Reader φ β α} (h : ∀ bs, r.run bs = r'.run bs) : r = r' := by
  cases r
  cases r'
  congr
  funext bs
  exact h bs

/-! ## The combinators -/

/-- Return `a` and take nothing. -/
def pure (a : α) : Reader φ β α where
  run bs := .ok (a, bs)
  local_run h := by cases h; exact ⟨[], rfl, fun _ => rfl⟩

/-- Fail. -/
def fail (f : φ) : Reader φ β α where
  run _ := .error f
  local_run h := by cases h

/-- Run `r` and go on with what it returns. -/
def bind (r : Reader φ β α) (k : α → Reader φ β γ) : Reader φ β γ where
  run bs :=
    match r.run bs with
    | .ok (a, rest) => (k a).run rest
    | .error f => .error f
  local_run {bs c rest} h := by
    cases hr : r.run bs with
    | error f => rw [hr] at h; cases h
    | ok p =>
      obtain ⟨a, mid⟩ := p
      rw [hr] at h
      obtain ⟨used₁, rfl, h₁⟩ := r.local_run hr
      obtain ⟨used₂, rfl, h₂⟩ := (k a).local_run h
      exact ⟨used₁ ++ used₂, by simp, fun rest' => by rw [List.append_assoc, h₁]; exact h₂ rest'⟩

/-- Take `n` tokens, or fail with `short`. -/
def take (short : φ) (n : Nat) : Reader φ β (List β) where
  run bs := if n ≤ bs.length then .ok (bs.take n, bs.drop n) else .error short
  local_run {bs a rest} h := by
    split at h
    · rename_i hn
      cases h
      refine ⟨bs.take n, by simp, fun rest' => ?_⟩
      have hl : (bs.take n).length = n := by simp [hn]
      rw [if_pos (by simp [hn]), List.take_left' hl, List.drop_left' hl]
    · cases h

/-- Take one token, or fail with `short`. -/
def item (short : φ) : Reader φ β β where
  run
    | [] => .error short
    | b :: bs => .ok (b, bs)
  local_run {bs a rest} h := by
    cases bs with
    | nil => cases h
    | cons b bs => cases h; exact ⟨[a], rfl, fun _ => rfl⟩

/-- Run `r` on `n` items in a row. -/
def times (r : Reader φ β α) : Nat → Reader φ β (List α)
  | 0 => pure []
  | n + 1 => r.bind fun a => (times r n).bind fun as => pure (a :: as)

/-- Run `r` on the `n` elements of a vector. -/
def vector (r : Reader φ β α) : (n : Nat) → Reader φ β (List.Vector α n)
  | 0 => pure List.Vector.nil
  | n + 1 => r.bind fun a => (vector r n).bind fun as => pure (List.Vector.cons a as)

@[simp] theorem run_pure (a : α) (bs : List β) : (pure a : Reader φ β α).run bs = .ok (a, bs) := rfl

@[simp] theorem run_fail (f : φ) (bs : List β) : (fail f : Reader φ β α).run bs = .error f := rfl

theorem run_bind_ok {r : Reader φ β α} {bs rest : List β} {a : α} (h : r.run bs = .ok (a, rest))
    (k : α → Reader φ β γ) : (r.bind k).run bs = (k a).run rest := by simp only [bind, h]

theorem run_bind_error {r : Reader φ β α} {bs : List β} {f : φ} (h : r.run bs = .error f) (k : α → Reader φ β γ) :
    (r.bind k).run bs = .error f := by simp only [bind, h]

/-- A sequence that returns runs its two halves one after the other. -/
theorem run_bind_eq_ok {r : Reader φ β α} {k : α → Reader φ β γ} {bs rest : List β} {c : γ} :
    (r.bind k).run bs = .ok (c, rest) ↔ ∃ a mid, r.run bs = .ok (a, mid) ∧ (k a).run mid = .ok (c, rest) := by
  cases hr : r.run bs with
  | error f => simp [run_bind_error hr]
  | ok p => obtain ⟨a, mid⟩ := p; simp [run_bind_ok hr]

theorem run_take_eq_ok {short : φ} {n : Nat} {bs used rest : List β} :
    (take short n).run bs = .ok (used, rest) ↔ bs = used ++ rest ∧ used.length = n := by
  constructor
  · intro h
    simp only [take] at h
    split at h
    · rename_i hn
      cases h
      exact ⟨by simp, by simp [hn]⟩
    · cases h
  · rintro ⟨rfl, rfl⟩
    simp [take]

theorem pure_bind (a : α) (k : α → Reader φ β γ) : (pure a).bind k = k a := ext fun _ => rfl

theorem bind_assoc {δ : Type} (r : Reader φ β α) (k : α → Reader φ β γ) (k' : γ → Reader φ β δ) :
    (r.bind k).bind k' = r.bind fun a => (k a).bind k' := by
  refine ext fun bs => ?_
  simp only [bind]
  cases r.run bs <;> rfl

theorem take_zero (short : φ) : (take short 0 : Reader φ β (List β)) = pure [] := ext fun _ => rfl

/-- Take the first token, and then the others. -/
theorem take_succ (short : φ) (n : Nat) :
    (take short (n + 1) : Reader φ β (List β)) =
      (item short).bind fun b => (take short n).bind fun bs => pure (b :: bs) := by
  refine ext fun bs => ?_
  cases bs with
  | nil => rfl
  | cons b bs =>
    simp only [take, bind, item, pure, List.length_cons, Nat.add_le_add_iff_right]
    by_cases hn : n ≤ bs.length
    · rw [if_pos hn, if_pos hn]
      rfl
    · rw [if_neg hn, if_neg hn]

theorem times_pure (a : α) : ∀ n, times (pure a : Reader φ β α) n = pure (List.replicate n a)
  | 0 => rfl
  | n + 1 => by
    rw [times, pure_bind, times_pure a n, pure_bind]
    rfl

theorem times_map (r : Reader φ β α) (f : α → γ) : ∀ n,
    times (r.bind fun a => pure (f a)) n = (times r n).bind fun as => pure (as.map f)
  | 0 => rfl
  | n + 1 => by
    simp only [times, times_map r f n, bind_assoc, pure_bind, List.map_cons]

/-- A loop whose results are not used, with a body whose results are not used. -/
theorem times_forget (r : Reader φ β α) (k : Reader φ β γ) : ∀ n,
    (times r n).bind (fun _ => k) = (times (r.bind fun _ => pure ()) n).bind fun _ => k
  | 0 => rfl
  | n + 1 => by
    simp only [times, bind_assoc, pure_bind, times_forget r k n]

/-- What is left over is no longer than the input. -/
theorem rest_le {r : Reader φ β α} {bs rest : List β} {a : α} (h : r.run bs = .ok (a, rest)) :
    rest.length ≤ bs.length := by
  obtain ⟨used, rfl, _⟩ := r.local_run h
  simp

/-- On an empty input nothing is left over. -/
theorem rest_nil {r : Reader φ β α} {rest : List β} {a : α} (h : r.run [] = .ok (a, rest)) : rest = [] :=
  List.eq_nil_of_length_eq_zero (Nat.le_zero.mp (rest_le h))

/-- More input behind the rest does not change what is read. -/
theorem run_append {r : Reader φ β α} {bs rest : List β} {a : α} (h : r.run bs = .ok (a, rest)) (more : List β) :
    r.run (bs ++ more) = .ok (a, rest ++ more) := by
  obtain ⟨used, rfl, hu⟩ := r.local_run h
  rw [List.append_assoc]
  exact hu _

/-! ## What a reader takes -/

/-- `r` takes exactly `used` to return `a`. -/
def Yields (r : Reader φ β α) (used : List β) (a : α) : Prop := ∀ rest, r.run (used ++ rest) = .ok (a, rest)

/-- A run that returns takes some tokens, and those alone decide it. -/
theorem yields_of_run {r : Reader φ β α} {bs rest : List β} {a : α} (h : r.run bs = .ok (a, rest)) :
    ∃ used, bs = used ++ rest ∧ r.Yields used a := r.local_run h

theorem yields_pure (a : α) : (pure a : Reader φ β α).Yields [] a := fun _ => rfl

theorem yields_take (short : φ) (used : List β) : (take short used.length).Yields used used :=
  fun _ => run_take_eq_ok.mpr ⟨rfl, rfl⟩

theorem yields_item (short : φ) (b : β) : (item short).Yields [b] b := fun _ => rfl

theorem Yields.bind {r : Reader φ β α} {k : α → Reader φ β γ} {u₁ u₂ : List β} {a : α} {c : γ}
    (h₁ : r.Yields u₁ a) (h₂ : (k a).Yields u₂ c) : (r.bind k).Yields (u₁ ++ u₂) c := fun rest => by
  rw [List.append_assoc, run_bind_ok (h₁ _)]
  exact h₂ rest

/-- Turning what was read into something else takes nothing more. -/
theorem Yields.map {r : Reader φ β α} {u : List β} {a : α} (h : r.Yields u a) (f : α → γ) :
    (r.bind fun a => pure (f a)).Yields u (f a) := fun rest => by
  rw [run_bind_ok (h rest), run_pure]

theorem yields_pure_iff {a c : α} {us : List β} : (pure a : Reader φ β α).Yields us c ↔ us = [] ∧ c = a := by
  constructor
  · intro h
    have hrun := h []
    rw [run_pure, List.append_nil] at hrun
    cases hrun
    exact ⟨rfl, rfl⟩
  · rintro ⟨rfl, rfl⟩
    exact yields_pure c

theorem yields_item_iff {short : φ} {us : List β} {b : β} : (item short).Yields us b ↔ us = [b] := by
  constructor
  · intro h
    have hrun := h []
    rw [List.append_nil] at hrun
    cases us with
    | nil => cases hrun
    | cons c cs =>
      cases hrun
      rfl
  · rintro rfl
    exact yields_item short b

/-- A sequence yields a value from what its two halves take, one after the other. -/
theorem yields_bind_iff {r : Reader φ β α} {k : α → Reader φ β γ} {us : List β} {c : γ} :
    (r.bind k).Yields us c ↔ ∃ u₁ u₂ a, us = u₁ ++ u₂ ∧ r.Yields u₁ a ∧ (k a).Yields u₂ c := by
  constructor
  · intro h
    have hrun := h []
    rw [List.append_nil] at hrun
    obtain ⟨a, mid, ha, hc⟩ := run_bind_eq_ok.mp hrun
    obtain ⟨u₁, rfl, h₁⟩ := yields_of_run ha
    obtain ⟨u₂, hu₂, h₂⟩ := yields_of_run hc
    rw [List.append_nil] at hu₂
    obtain rfl := hu₂
    exact ⟨u₁, mid, a, rfl, h₁, h₂⟩
  · rintro ⟨u₁, u₂, a, rfl, h₁, h₂⟩
    exact h₁.bind h₂

theorem yields_times {r : Reader φ β α} {out : α → List β} : ∀ (as : List α), (∀ a ∈ as, r.Yields (out a) a) →
    (times r as.length).Yields (as.flatMap out) as
  | [], _ => yields_pure []
  | a :: as, h => by
    rw [List.flatMap_cons]
    exact Yields.bind (h a List.mem_cons_self)
      (Yields.map (yields_times as fun b hb => h b (List.mem_cons_of_mem a hb)) (a :: ·))

theorem yields_vector {r : Reader φ β α} {out : α → List β} : ∀ {n : Nat} (as : List.Vector α n),
    (∀ a ∈ as.toList, r.Yields (out a) a) → (vector r n).Yields (as.toList.flatMap out) as
  | 0, ⟨[], rfl⟩, _ => yields_pure _
  | n + 1, ⟨a :: as, hn⟩, h => by
    have hn' : as.length = n := by simpa using hn
    have htail := yields_vector (⟨as, hn'⟩ : List.Vector α n) fun b hb => h b (List.mem_cons_of_mem a hb)
    exact Yields.bind (h a List.mem_cons_self) (Yields.map htail (List.Vector.cons a))

/-- What `times` takes of the items is what it returns, as many as it is told. -/
theorem yields_times_item {short : φ} : ∀ {n : Nat} {used as : List β}, (times (item short) n).Yields used as →
    used = as ∧ as.length = n
  | 0, used, as, h => by
    have hr := h []
    rw [times, run_pure, List.append_nil] at hr
    cases hr
    exact ⟨rfl, rfl⟩
  | n + 1, used, as, h => by
    have hr := h []
    rw [times, List.append_nil] at hr
    obtain ⟨a, mid, ha, hr⟩ := run_bind_eq_ok.mp hr
    obtain ⟨as', mid', has, hr⟩ := run_bind_eq_ok.mp hr
    cases hr
    cases used with
    | nil => cases ha
    | cons b bs =>
      cases ha
      obtain ⟨u, hu, hy⟩ := yields_of_run has
      obtain ⟨rfl, rfl⟩ := yields_times_item hy
      rw [List.append_nil] at hu
      exact ⟨congrArg _ hu, rfl⟩

/-! ## Tokens that make a reader fail -/

/-- `r` fails with `f` on `used`, whatever follows. -/
def FailsOn (r : Reader φ β α) (used : List β) (f : φ) : Prop := ∀ rest, r.run (used ++ rest) = .error f

theorem FailsOn.bind_left {r : Reader φ β α} {u₁ : List β} {f : φ} (h : r.FailsOn u₁ f) (k : α → Reader φ β γ)
    (u₂ : List β) : (r.bind k).FailsOn (u₁ ++ u₂) f := fun rest => by
  rw [List.append_assoc]
  exact run_bind_error (h _) k

theorem FailsOn.bind_right {r : Reader φ β α} {k : α → Reader φ β γ} {u₁ u₂ : List β} {a : α} {f : φ}
    (h₁ : r.Yields u₁ a) (h₂ : (k a).FailsOn u₂ f) : (r.bind k).FailsOn (u₁ ++ u₂) f := fun rest => by
  rw [List.append_assoc, run_bind_ok (h₁ _)]
  exact h₂ rest

/-- `times` fails on items of which one makes it fail, when it reads those before. -/
theorem failsOn_times {r : Reader φ β α} {out : α → List β} {f : φ} : ∀ (as : List α),
    (∀ a ∈ as, r.Yields (out a) a ∨ r.FailsOn (out a) f) → (∃ a ∈ as, r.FailsOn (out a) f) →
      (times r as.length).FailsOn (as.flatMap out) f
  | [], _, h => by obtain ⟨a, ha, _⟩ := h; cases ha
  | a :: as, hall, hex => by
    rw [List.flatMap_cons]
    rcases hall a List.mem_cons_self with hy | hf
    · obtain ⟨b, hb, hfb⟩ := hex
      rcases List.mem_cons.mp hb with rfl | hb
      · exact hfb.bind_left _ _
      · have hrest := failsOn_times as (fun c hc => hall c (List.mem_cons_of_mem a hc)) ⟨b, hb, hfb⟩
        rw [← List.append_nil (as.flatMap out)]
        exact FailsOn.bind_right hy (hrest.bind_left _ [])
    · exact hf.bind_left _ _

/-! ## Properties that compose -/

/-- A property of readers that the constant readers have and sequences keep. -/
structure Composes (P : ∀ α : Type, Reader φ β α → Prop) : Prop where
  of_pure : ∀ {α : Type} (a : α), P α (pure a)
  of_bind : ∀ {α γ : Type} {r : Reader φ β α} {k : α → Reader φ β γ}, P α r → (∀ a, P γ (k a)) → P γ (r.bind k)

theorem Composes.times {P : ∀ α : Type, Reader φ β α → Prop} (h : Composes P) {r : Reader φ β α} (hr : P α r) :
    ∀ n, P _ (times r n)
  | 0 => h.of_pure []
  | n + 1 => h.of_bind hr fun a => h.of_bind (h.times hr n) fun as => h.of_pure (a :: as)

theorem Composes.vector {P : ∀ α : Type, Reader φ β α → Prop} (h : Composes P) {r : Reader φ β α} (hr : P α r) :
    ∀ n, P _ (vector r n)
  | 0 => h.of_pure _
  | n + 1 => h.of_bind hr fun a => h.of_bind (h.vector hr n) fun as => h.of_pure (List.Vector.cons a as)

/-! ## Failures that do not happen -/

/-- `r` never fails with `f`. -/
def Avoids (r : Reader φ β α) (f : φ) : Prop := ∀ bs, r.run bs ≠ .error f

theorem avoids_pure (a : α) (f : φ) : (pure a : Reader φ β α).Avoids f := fun _ h => by cases h

theorem avoids_fail {f f' : φ} (h : f' ≠ f) : (fail f' : Reader φ β α).Avoids f := fun _ h' => by
  cases h'
  exact h rfl

theorem avoids_take {short f : φ} (h : short ≠ f) (n : Nat) : (take short n : Reader φ β (List β)).Avoids f := by
  intro bs h'
  simp only [take] at h'
  split at h'
  · cases h'
  · cases h'
    exact h rfl

theorem avoids_item {short f : φ} (h : short ≠ f) : (item short : Reader φ β β).Avoids f := by
  intro bs h'
  cases bs with
  | nil => cases h'; exact h rfl
  | cons b bs => cases h'

theorem Avoids.bind {r : Reader φ β α} {k : α → Reader φ β γ} {f : φ} (hr : r.Avoids f) (hk : ∀ a, (k a).Avoids f) :
    (r.bind k).Avoids f := by
  intro bs h
  cases hb : r.run bs with
  | error f' =>
    rw [run_bind_error hb] at h
    cases h
    exact hr bs hb
  | ok p =>
    obtain ⟨a, rest⟩ := p
    rw [run_bind_ok hb] at h
    exact hk a rest h

theorem avoids_composes (f : φ) : Composes fun _ (r : Reader φ β _) => r.Avoids f where
  of_pure a := avoids_pure a f
  of_bind := Avoids.bind

/-! ## Inputs that end too early -/

/-- `short` is the failure of an input that ends too early, and of no other: such an input can be completed, the empty
input has no other failure, and no other failure goes away with more input. -/
structure Streaming (short : φ) (r : Reader φ β α) : Prop where
  complete : ∀ bs, r.run bs = .error short → ∃ more a, more ≠ [] ∧ r.run (bs ++ more) = .ok (a, [])
  empty : ∀ f, r.run [] = .error f → f = short
  stable : ∀ bs f, r.run bs = .error f → f ≠ short → ∀ more, r.run (bs ++ more) = .error f

theorem streaming_pure (short : φ) (a : α) : (pure a : Reader φ β α).Streaming short where
  complete _ h := by cases h
  empty _ h := by cases h
  stable _ _ h := by cases h

theorem streaming_take [Inhabited β] (short : φ) (n : Nat) : (take short n : Reader φ β (List β)).Streaming short where
  complete bs h := by
    have hn : ¬ n ≤ bs.length := fun hn => by simp [take, hn] at h
    refine ⟨List.replicate (n - bs.length) default, bs ++ List.replicate (n - bs.length) default, ?_, ?_⟩
    · simp; omega
    · exact run_take_eq_ok.mpr ⟨by simp, by simp; omega⟩
  empty f h := by
    simp only [take] at h
    split at h
    · cases h
    · cases h; rfl
  stable bs f h hf more := by
    simp only [take] at h
    split at h
    · cases h
    · cases h; exact absurd rfl hf

theorem streaming_item [Inhabited β] (short : φ) : (item short : Reader φ β β).Streaming short where
  complete
    | [], _ => ⟨[default], default, by simp, rfl⟩
    | _ :: _, h => by cases h
  empty _ h := by cases h; rfl
  stable
    | [], _, h, hf => by cases h; exact absurd rfl hf
    | _ :: _, _, h, _ => by cases h

theorem Streaming.bind {short : φ} {r : Reader φ β α} {k : α → Reader φ β γ} (hr : r.Streaming short)
    (hk : ∀ a, (k a).Streaming short) : (r.bind k).Streaming short where
  complete bs h := by
    cases hb : r.run bs with
    | error f =>
      rw [run_bind_error hb] at h
      cases h
      obtain ⟨more, a, hne, hm⟩ := hr.complete bs hb
      cases hc : (k a).run [] with
      | ok p =>
        obtain ⟨c, rest⟩ := p
        cases rest_nil hc
        exact ⟨more, c, hne, by rw [run_bind_ok hm, hc]⟩
      | error f =>
        cases (hk a).empty f hc
        obtain ⟨more', c, _, hm'⟩ := (hk a).complete [] hc
        refine ⟨more ++ more', c, by simp [hne], ?_⟩
        rw [← List.append_assoc, run_bind_ok (run_append hm more')]
        exact hm'
    | ok p =>
      obtain ⟨a, rest⟩ := p
      rw [run_bind_ok hb] at h
      obtain ⟨more, c, hne, hm⟩ := (hk a).complete rest h
      exact ⟨more, c, hne, by rw [run_bind_ok (run_append hb more), hm]⟩
  empty f h := by
    cases hb : r.run [] with
    | error f' => rw [run_bind_error hb] at h; cases h; exact hr.empty f hb
    | ok p =>
      obtain ⟨a, rest⟩ := p
      rw [run_bind_ok hb, rest_nil hb] at h
      exact (hk a).empty f h
  stable bs f h hf more := by
    cases hb : r.run bs with
    | error f' =>
      rw [run_bind_error hb] at h
      cases h
      exact run_bind_error (hr.stable bs f hb hf more) k
    | ok p =>
      obtain ⟨a, rest⟩ := p
      rw [run_bind_ok hb] at h
      rw [run_bind_ok (run_append hb more)]
      exact (hk a).stable rest f h hf more

/-- What was read may be refused with another failure, if no input that ends too early is refused in every way that it
goes on. -/
theorem Streaming.check {short : φ} {r : Reader φ β α} {k : α → Reader φ β γ} (hr : r.Streaming short) (refused : φ)
    (hne : refused ≠ short) (hk : ∀ a, (∃ c, k a = pure c) ∨ k a = fail refused) (hnil : r.run [] = .error short)
    (hgood : ∀ bs, r.run bs = .error short → ∃ more a c, more ≠ [] ∧ r.run (bs ++ more) = .ok (a, []) ∧ k a = pure c) :
    (r.bind k).Streaming short where
  complete bs h := by
    cases hb : r.run bs with
    | error f =>
      rw [run_bind_error hb] at h
      cases h
      obtain ⟨more, a, c, hmore, hm, hc⟩ := hgood bs hb
      exact ⟨more, c, hmore, by rw [run_bind_ok hm, hc, run_pure]⟩
    | ok p =>
      obtain ⟨a, rest⟩ := p
      rw [run_bind_ok hb] at h
      rcases hk a with ⟨c, hc⟩ | hc
      · rw [hc] at h; cases h
      · rw [hc] at h; cases h; exact absurd rfl hne
  empty f h := by
    rw [run_bind_error hnil] at h
    cases h
    rfl
  stable bs f h hf more := by
    cases hb : r.run bs with
    | error f' =>
      rw [run_bind_error hb] at h
      cases h
      exact run_bind_error (hr.stable bs f hb hf more) k
    | ok p =>
      obtain ⟨a, rest⟩ := p
      rw [run_bind_ok hb] at h
      rw [run_bind_ok (run_append hb more)]
      rcases hk a with ⟨c, hc⟩ | hc
      · rw [hc] at h; cases h
      · rw [hc] at h ⊢; exact h

theorem streaming_composes (short : φ) : Composes fun _ (r : Reader φ β _) => r.Streaming short where
  of_pure := streaming_pure short
  of_bind := Streaming.bind

/-- A streaming reader fails with `short` exactly on the inputs that some more tokens complete to one of which it takes
more than the input. -/
theorem short_iff {short : φ} {r : Reader φ β α} (hr : r.Streaming short) (bs : List β) :
    r.run bs = .error short ↔ ∃ more a rest, r.run (bs ++ more) = .ok (a, rest) ∧ rest.length < more.length := by
  constructor
  · intro h
    obtain ⟨more, a, hne, hm⟩ := hr.complete bs h
    exact ⟨more, a, [], hm, List.length_pos_of_ne_nil hne⟩
  · rintro ⟨more, a, rest, hm, hlt⟩
    cases hb : r.run bs with
    | ok p =>
      obtain ⟨a', rest'⟩ := p
      rw [run_append hb more] at hm
      cases hm
      simp only [List.length_append] at hlt
      omega
    | error f =>
      by_cases hf : f = short
      · rw [hf]
      · rw [hr.stable bs f hb hf more] at hm; cases hm

/-! ## Readers in step -/

/-- `r` and `r'` take the same tokens and fail alike, and `R` relates the tokens taken and what the two return. -/
structure InStep (R : List β → α → γ → Prop) (r : Reader φ β α) (r' : Reader φ β γ) : Prop where
  ok : ∀ bs a rest, r.run bs = .ok (a, rest) → ∃ used c, bs = used ++ rest ∧ r'.run bs = .ok (c, rest) ∧ R used a c
  error : ∀ bs f, r.run bs = .error f → r'.run bs = .error f

section InStep

variable {α' γ' : Type}

theorem InStep.error_iff {R : List β → α → γ → Prop} {r : Reader φ β α} {r' : Reader φ β γ} (h : InStep R r r')
    (bs : List β) (f : φ) : r.run bs = .error f ↔ r'.run bs = .error f := by
  constructor
  · exact h.error bs f
  · intro h'
    cases hr : r.run bs with
    | error f' =>
      rw [h.error bs f' hr] at h'
      cases h'
      rfl
    | ok p =>
      obtain ⟨used, c, _, hc, _⟩ := h.ok bs p.1 p.2 hr
      rw [hc] at h'
      cases h'

theorem InStep.symm {R : List β → α → γ → Prop} {r : Reader φ β α} {r' : Reader φ β γ} (h : InStep R r r') :
    InStep (fun u c a => R u a c) r' r where
  ok bs c rest hr' := by
    cases hr : r.run bs with
    | error f =>
      rw [h.error bs f hr] at hr'
      cases hr'
    | ok p =>
      obtain ⟨used, c', hsplit, hc', hR⟩ := h.ok bs p.1 p.2 hr
      rw [hc'] at hr'
      cases hr'
      exact ⟨used, p.1, hsplit, rfl, hR⟩
  error bs f := (h.error_iff bs f).mpr

theorem InStep.trans {R : List β → α → γ → Prop} {S : List β → γ → γ' → Prop} {r : Reader φ β α} {r' : Reader φ β γ}
    {r'' : Reader φ β γ'} (h : InStep R r r') (h' : InStep S r' r'') :
    InStep (fun u a c' => ∃ c, R u a c ∧ S u c c') r r'' where
  ok bs a rest hr := by
    obtain ⟨used, c, hsplit, hc, hR⟩ := h.ok bs a rest hr
    obtain ⟨used', c', hsplit', hc', hS⟩ := h'.ok bs c rest hc
    obtain rfl := List.append_cancel_right (hsplit.symm.trans hsplit')
    exact ⟨used, c', hsplit, hc', c, hR, hS⟩
  error bs f hr := h'.error bs f (h.error bs f hr)

theorem InStep.mono {R S : List β → α → γ → Prop} {r : Reader φ β α} {r' : Reader φ β γ} (h : InStep R r r')
    (hRS : ∀ u a c, R u a c → S u a c) : InStep S r r' where
  ok bs a rest hr := by
    obtain ⟨used, c, hsplit, hc, hR⟩ := h.ok bs a rest hr
    exact ⟨used, c, hsplit, hc, hRS _ _ _ hR⟩
  error := h.error

theorem inStep_pure {R : List β → α → γ → Prop} {a : α} {c : γ} (h : R [] a c) :
    InStep R (pure a : Reader φ β α) (pure c) where
  ok bs a' rest hr := by cases hr; exact ⟨[], c, rfl, rfl, h⟩
  error bs f hr := by cases hr

theorem inStep_fail (R : List β → α → γ → Prop) (f : φ) : InStep R (fail f : Reader φ β α) (fail f) where
  ok bs a rest hr := by cases hr
  error bs f' hr := by cases hr; rfl

theorem inStep_self (r : Reader φ β α) : InStep (fun u a a' => r.Yields u a ∧ a' = a) r r where
  ok bs a rest hr := by
    obtain ⟨used, hsplit, hy⟩ := yields_of_run hr
    exact ⟨used, a, hsplit, hr, hy, rfl⟩
  error bs f hr := hr

theorem inStep_take (short : φ) (n : Nat) :
    InStep (fun u as as' => u.length = n ∧ as = u ∧ as' = u) (take short n : Reader φ β (List β)) (take short n) := by
  refine (inStep_self _).mono ?_
  rintro u as _ ⟨hy, rfl⟩
  have hr := hy []
  rw [List.append_nil] at hr
  obtain ⟨hsplit, hlen⟩ := run_take_eq_ok.mp hr
  rw [List.append_nil] at hsplit
  subst hsplit
  exact ⟨hlen, rfl, rfl⟩

theorem inStep_times_item (short : φ) (n : Nat) :
    InStep (fun u as as' => u = as ∧ as.length = n ∧ as' = as) (times (item short : Reader φ β β) n)
      (times (item short) n) := by
  refine (inStep_self _).mono ?_
  rintro u as _ ⟨hy, rfl⟩
  obtain ⟨hu, hlen⟩ := yields_times_item hy
  exact ⟨hu, hlen, rfl⟩

/-- Turning what the second reader returns into something else keeps the two in step. -/
theorem InStep.map {R : List β → α → γ → Prop} {r : Reader φ β α} {r' : Reader φ β γ} (h : InStep R r r')
    (f : γ → γ') : InStep (fun u a c' => ∃ c, R u a c ∧ c' = f c) r (r'.bind fun c => pure (f c)) where
  ok bs a rest hr := by
    obtain ⟨used, c, hsplit, hc, hR⟩ := h.ok bs a rest hr
    exact ⟨used, f c, hsplit, by rw [run_bind_ok hc, run_pure], c, hR, rfl⟩
  error bs e hr := run_bind_error (h.error bs e hr) _

theorem InStep.bind {R : List β → α → α' → Prop} {S : List β → γ → γ' → Prop} {r : Reader φ β α} {r' : Reader φ β α'}
    {k : α → Reader φ β γ} {k' : α' → Reader φ β γ'} (h : InStep R r r')
    (hk : ∀ u a a', R u a a' → InStep (fun u' c c' => S (u ++ u') c c') (k a) (k' a')) :
    InStep S (r.bind k) (r'.bind k') where
  ok bs c rest hr := by
    obtain ⟨a, mid, ha, hc⟩ := run_bind_eq_ok.mp hr
    obtain ⟨u, a', rfl, ha', hR⟩ := h.ok bs a mid ha
    obtain ⟨u', c', rfl, hc', hS⟩ := (hk u a a' hR).ok mid c rest hc
    exact ⟨u ++ u', c', (List.append_assoc _ _ _).symm, by rw [run_bind_ok ha', hc'], hS⟩
  error bs f hr := by
    cases ha : r.run bs with
    | error f' =>
      rw [run_bind_error ha] at hr
      cases hr
      exact run_bind_error (h.error bs f ha) k'
    | ok p =>
      obtain ⟨a, mid⟩ := p
      rw [run_bind_ok ha] at hr
      obtain ⟨u, a', _, ha', hR⟩ := h.ok bs a mid ha
      rw [run_bind_ok ha']
      exact (hk u a a' hR).error mid f hr

/-- `R` holds along two lists and the pieces of a list of tokens. -/
inductive Chain (R : List β → α → γ → Prop) : List β → List α → List γ → Prop
  | nil : Chain R [] [] []
  | cons {u us : List β} {a : α} {as : List α} {c : γ} {cs : List γ} :
    R u a c → Chain R us as cs → Chain R (u ++ us) (a :: as) (c :: cs)

theorem inStep_times {R : List β → α → γ → Prop} {r : Reader φ β α} {r' : Reader φ β γ} (h : InStep R r r') :
    ∀ n, InStep (fun u as cs => as.length = n ∧ Chain R u as cs) (times r n) (times r' n)
  | 0 => inStep_pure ⟨rfl, .nil⟩
  | n + 1 => by
    refine h.bind fun u a c hR => (inStep_times h n).bind fun us as cs hRs => inStep_pure ?_
    rw [List.append_nil]
    exact ⟨congrArg (· + 1) hRs.1, .cons hR hRs.2⟩

theorem inStep_vector {R : List β → α → γ → Prop} {r : Reader φ β α} {r' : Reader φ β γ} (h : InStep R r r') :
    ∀ n, InStep (fun u as cs => Chain R u as.toList cs) (vector r n) (times r' n)
  | 0 => inStep_pure .nil
  | n + 1 => by
    refine h.bind fun u a c hR => (inStep_vector h n).bind fun us as cs hRs => inStep_pure ?_
    rw [List.append_nil, List.Vector.toList_cons]
    exact .cons hR hRs

end InStep

/-! ## Readers on a memory -/

/-- Run `r` at position `p` of `mem`, and return the position after what it took. -/
def runAt (r : Reader φ β α) (mem : List β) (p : Nat) : Except φ (α × Nat) :=
  match r.run (mem.drop p) with
  | .ok (a, rest) => .ok (a, p + ((mem.drop p).length - rest.length))
  | .error f => .error f

@[simp] theorem runAt_pure (a : α) (mem : List β) (p : Nat) : (pure a : Reader φ β α).runAt mem p = .ok (a, p) := by
  simp [runAt]

@[simp] theorem runAt_fail (f : φ) (mem : List β) (p : Nat) : (fail f : Reader φ β α).runAt mem p = .error f := rfl

/-- A run at a position returns when the reader yields the value from some tokens found there. -/
theorem runAt_eq_ok {r : Reader φ β α} {mem : List β} {p p' : Nat} {a : α} :
    r.runAt mem p = .ok (a, p') ↔
      ∃ used rest, mem.drop p = used ++ rest ∧ r.Yields used a ∧ p' = p + used.length := by
  constructor
  · intro h
    simp only [runAt] at h
    split at h
    · rename_i a' rest hr
      cases h
      obtain ⟨used, hu, hy⟩ := yields_of_run hr
      exact ⟨used, rest, hu, hy, by rw [hu]; simp⟩
    · cases h
  · rintro ⟨used, rest, hu, hy, rfl⟩
    simp [runAt, hu, hy rest]

theorem runAt_eq_error {r : Reader φ β α} {mem : List β} {p : Nat} {f : φ} :
    r.runAt mem p = .error f ↔ r.run (mem.drop p) = .error f := by
  simp only [runAt]
  split <;> simp_all

/-- The tokens a reader yields a value from, at their position in memory. -/
theorem Yields.runAt {r : Reader φ β α} {used : List β} {a : α} (h : r.Yields used a) (pre post : List β) :
    r.runAt (pre ++ (used ++ post)) pre.length = .ok (a, pre.length + used.length) :=
  runAt_eq_ok.mpr ⟨used, post, by simp, h, rfl⟩

/-- A sequence at a position runs its two halves at the positions they start at. -/
theorem runAt_bind (r : Reader φ β α) (k : α → Reader φ β γ) (mem : List β) (p : Nat) :
    (r.bind k).runAt mem p = (r.runAt mem p).bind fun q => (k q.1).runAt mem q.2 := by
  cases hr : r.run (mem.drop p) with
  | error f =>
    rw [runAt_eq_error.mpr (run_bind_error hr k), runAt_eq_error.mpr hr]
    rfl
  | ok q =>
    obtain ⟨a, rest⟩ := q
    obtain ⟨used, hu, hy⟩ := yields_of_run hr
    have hdrop : mem.drop (p + used.length) = rest := by rw [← List.drop_drop, hu, List.drop_left]
    rw [runAt_eq_ok.mpr ⟨used, rest, hu, hy, rfl⟩]
    show _ = (k a).runAt mem (p + used.length)
    have hrest : rest.length ≤ (mem.drop p).length := rest_le hr
    simp only [Reader.runAt, run_bind_ok hr, hdrop]
    cases hk : (k a).run rest with
    | error f => rfl
    | ok q =>
      obtain ⟨c, rest'⟩ := q
      have hrest' := rest_le hk
      simp only [hu, List.length_append, Except.ok.injEq, Prod.mk.injEq, true_and]
      omega

/-- Taking at least one token at a position of memory. -/
theorem runAt_take (short : φ) {n : Nat} (hn : 0 < n) (mem : List β) (p : Nat) :
    (take short n).runAt mem p =
      if p + n ≤ mem.length then .ok ((mem.drop p).take n, p + n) else .error short := by
  split
  · rename_i h
    refine runAt_eq_ok.mpr ⟨(mem.drop p).take n, (mem.drop p).drop n, by simp, ?_, by simp; omega⟩
    have hl : ((mem.drop p).take n).length = n := by simp; omega
    have := yields_take short ((mem.drop p).take n)
    rwa [hl] at this
  · rename_i h
    refine runAt_eq_error.mpr ?_
    simp only [take, List.length_drop]
    rw [if_neg (by omega)]

theorem runAt_item (short : φ) (mem : List β) (p : Nat) :
    (item short).runAt mem p = match mem[p]? with
      | some b => .ok (b, p + 1)
      | none => .error short := by
  cases hp : mem[p]? with
  | some b =>
    have hd : mem.drop p = [b] ++ mem.drop (p + 1) := by
      obtain ⟨hlt, rfl⟩ := List.getElem?_eq_some_iff.mp hp
      exact List.drop_eq_getElem_cons hlt
    exact runAt_eq_ok.mpr ⟨[b], _, hd, yields_item short b, rfl⟩
  | none =>
    have hd : mem.drop p = [] := List.drop_eq_nil_of_le (List.getElem?_eq_none_iff.mp hp)
    exact runAt_eq_error.mpr (by rw [hd]; rfl)

/-! ## Loops of commands that read -/

variable {ε σ : Type}

open Outcome in
/-- A loop whose body reads an item and appends it is a run of `times`. -/
theorem times_runAt (g : List α × Nat → σ) (r : Reader φ β α) (mem : List β) {body : σ → Outcome ε φ σ}
    (h : ∀ acc p, body (g (acc, p)) = ofExcept (fun q => g (acc ++ [q.1], q.2)) (r.runAt mem p)) :
    ∀ (n : Nat) (acc : List α) (p : Nat), Outcome.times body n (g (acc, p)) =
      ofExcept (fun q => g (acc ++ q.1, q.2)) ((times r n).runAt mem p)
  | 0, acc, p => by simp [times, Outcome.times]
  | n + 1, acc, p => by
    rw [Outcome.times, h, times, runAt_bind]
    refine ofExcept_bind (fun q => ?_) _
    rw [times_runAt g r mem h n, runAt_bind]
    cases (times r n).runAt mem q.2 with
    | error f => rfl
    | ok q' => simp [Except.bind]

open Outcome in
/-- A loop that reads every element of a vector in place is a run of `vector`, whatever the elements were. -/
theorem updateEach_runAt {r : Reader φ β α} {mem : List β} {body : α × Nat → Outcome ε φ (α × Nat)}
    (h : ∀ a p, body (a, p) = ofExcept id (r.runAt mem p)) : ∀ {n : Nat} (as : List.Vector α n) (p : Nat),
      updateEach body (as, p) = ofExcept id ((vector r n).runAt mem p)
  | 0, as, p => by
    have : as = List.Vector.nil := Subsingleton.elim _ _
    simp [updateEach, vector, this]
  | n + 1, as, p => by
    simp only [updateEach]
    rw [h, map_ofExcept, vector, runAt_bind]
    refine ofExcept_bind (fun q => ?_) _
    have ih : updateEach body (as.tail, q.2) = ofExcept id ((vector r n).runAt mem q.2) :=
      updateEach_runAt h as.tail q.2
    simp only [Function.comp_apply, id, List.Vector.tail_cons, List.Vector.head_cons]
    rw [runAt_bind]
    refine (congrArg _ ih).trans ?_
    cases (vector r n).runAt mem q.2 with
    | error f => rfl
    | ok q' => simp [Except.bind]

end Reader
