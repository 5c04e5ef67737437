import Mathlib.Data.Vector.Basic
import Mathlib.InformationTheory.Coding.UniquelyDecodable

/-!
# Prefix codes

`PrefixCode P enc` says that the codeword of a value for which `P` holds can be split off the front of any list of
tokens in one way only. Codewords of one length that differ are a prefix code (`of_length`); pairs, lists of a known
length, vectors and lists behind their length are again encoded by a prefix code. Codewords that are not empty are
uniquely decodable: a list of them can be told from its concatenation (`uniquelyDecodable`).
-/

/-- What is behind a codeword does not matter: two inputs that start with codewords and are equal have the same codeword
in front and the same rest. -/
def PrefixCode {α β : Type*} (P : α → Prop) (enc : α → List β) : Prop :=
  ∀ a b, P a → P b → ∀ x y, enc a ++ x = enc b ++ y → a = b ∧ x = y

namespace PrefixCode

variable {α β γ : Type*} {P : α → Prop} {Q : γ → Prop} {enc : α → List β} {enc' : γ → List β}

/-- The same codewords, for fewer values. -/
theorem mono {P' : α → Prop} {code : α → List β} (h : PrefixCode P enc) (hP : ∀ a, P' a → P a)
    (hcode : ∀ a, code a = enc a) : PrefixCode P' code := by
  intro a b ha hb x y heq
  rw [hcode a, hcode b] at heq
  exact h a b (hP a ha) (hP b hb) x y heq

/-- Codewords of one length that tell the values apart. -/
theorem of_length {n : Nat} (hlen : ∀ a, P a → (enc a).length = n)
    (hinj : ∀ a b, P a → P b → enc a = enc b → a = b) : PrefixCode P enc := by
  intro a b ha hb x y heq
  obtain ⟨hab, hxy⟩ := List.append_inj heq ((hlen a ha).trans (hlen b hb).symm)
  exact ⟨hinj a b ha hb hab, hxy⟩

/-- One value alone needs no codeword. -/
theorem of_subsingleton [Subsingleton α] : PrefixCode P (fun _ => ([] : List β)) :=
  fun a b _ _ _ _ heq => ⟨Subsingleton.elim a b, heq⟩

/-- Values that are told apart by what is encoded of them. -/
theorem comap {f : γ → α} (h : PrefixCode P enc) (hf : Function.Injective f) :
    PrefixCode (fun c => P (f c)) (fun c => enc (f c)) := by
  intro a b ha hb x y heq
  obtain ⟨hab, hxy⟩ := h (f a) (f b) ha hb x y heq
  exact ⟨hf hab, hxy⟩

/-- A pair, one codeword after the other. -/
theorem prod (h : PrefixCode P enc) (h' : PrefixCode Q enc') :
    PrefixCode (fun p : α × γ => P p.1 ∧ Q p.2) (fun p => enc p.1 ++ enc' p.2) := by
  rintro ⟨a, c⟩ ⟨b, d⟩ ⟨ha, hc⟩ ⟨hb, hd⟩ x y heq
  simp only [List.append_assoc] at heq
  obtain ⟨rfl, hrest⟩ := h a b ha hb _ _ heq
  obtain ⟨rfl, hxy⟩ := h' c d hc hd x y hrest
  exact ⟨rfl, hxy⟩

/-- Lists of one length, item by item. -/
theorem flatMap (h : PrefixCode P enc) : ∀ n : Nat,
    PrefixCode (fun as : List α => as.length = n ∧ ∀ a ∈ as, P a) (fun as => as.flatMap enc)
  | 0 => by
    rintro as bs ⟨ha, _⟩ ⟨hb, _⟩ x y heq
    obtain rfl := List.eq_nil_of_length_eq_zero ha
    obtain rfl := List.eq_nil_of_length_eq_zero hb
    exact ⟨rfl, heq⟩
  | n + 1 => by
    rintro (_ | ⟨a, as⟩) (_ | ⟨b, bs⟩) ⟨ha, hPa⟩ ⟨hb, hPb⟩ x y heq
    · cases ha
    · cases ha
    · cases hb
    · simp only [List.flatMap_cons, List.append_assoc] at heq
      obtain ⟨rfl, hrest⟩ := h a b (hPa a List.mem_cons_self) (hPb b List.mem_cons_self) _ _ heq
      have htails := flatMap h n as bs ⟨Nat.succ.inj ha, fun c hc => hPa c (List.mem_cons_of_mem _ hc)⟩
        ⟨Nat.succ.inj hb, fun c hc => hPb c (List.mem_cons_of_mem _ hc)⟩ x y hrest
      exact ⟨congrArg _ htails.1, htails.2⟩

theorem vector (h : PrefixCode P enc) (n : Nat) :
    PrefixCode (fun as : List.Vector α n => ∀ a ∈ as.toList, P a) (fun as => as.toList.flatMap enc) := by
  intro as bs ha hb x y heq
  have hlists := h.flatMap n as.toList bs.toList ⟨as.toList_length, ha⟩ ⟨bs.toList_length, hb⟩ x y heq
  exact ⟨List.Vector.toList_injective hlists.1, hlists.2⟩

/-- Lists behind a codeword for their length. -/
theorem counted {R : Nat → Prop} {len : Nat → List β} (hlen : PrefixCode R len) (h : PrefixCode P enc) :
    PrefixCode (fun as : List α => R as.length ∧ ∀ a ∈ as, P a) (fun as => len as.length ++ as.flatMap enc) := by
  rintro as bs ⟨hRa, hPa⟩ ⟨hRb, hPb⟩ x y heq
  simp only [List.append_assoc] at heq
  obtain ⟨hcount, hrest⟩ := hlen as.length bs.length hRa hRb _ _ heq
  exact h.flatMap bs.length as bs ⟨hcount, hPa⟩ ⟨rfl, hPb⟩ x y hrest

/-! ## Streams of codewords -/

/-- Codewords that are not empty can be told from their concatenation. -/
theorem uniquelyDecodable (h : PrefixCode P enc) (hne : ∀ a, P a → enc a ≠ []) :
    InformationTheory.UniquelyDecodable (enc '' {a | P a}) := by
  intro us
  induction us with
  | nil =>
    rintro (_ | ⟨w, ws⟩) _ hws heq
    · rfl
    · obtain ⟨b, hb, rfl⟩ := hws w List.mem_cons_self
      exact absurd (List.append_eq_nil_iff.mp heq.symm).1 (hne b hb)
  | cons u us ih =>
    rintro (_ | ⟨w, ws⟩) hus hws heq
    · obtain ⟨a, ha, rfl⟩ := hus u List.mem_cons_self
      exact absurd (List.append_eq_nil_iff.mp heq).1 (hne a ha)
    · obtain ⟨a, ha, rfl⟩ := hus u List.mem_cons_self
      obtain ⟨b, hb, rfl⟩ := hws w List.mem_cons_self
      rw [List.flatten_cons, List.flatten_cons] at heq
      obtain ⟨rfl, hrest⟩ := h a b ha hb _ _ heq
      have htails := ih ws (fun v hv => hus v (List.mem_cons_of_mem _ hv))
        (fun v hv => hws v (List.mem_cons_of_mem _ hv)) hrest
      rw [htails]

end PrefixCode
