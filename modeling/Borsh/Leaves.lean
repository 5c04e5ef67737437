import Borsh.Serializer

/-!
# What a value is made of

`Ty.leaves` lists what the serialization of a value comes upon, in traversal order: integral and floating leaves, the
length in front of a string or vector, the characters of strings, and the `std::array`s whose elements are not
scalars, at which `visit` re-enters itself (`reentry`).

The properties of values that the library's guarantees depend on are read off this list: that no floating leaf is NaN
(`NaNFree`), and the lengths of the strings and vectors at any depth (`counts`).
-/

namespace Borsh

inductive Leaf where
  | integral (t : IntegralType) (x : t.Val)
  | floating (f : FloatType) (x : f.Val)
  | length (n : Nat)
  | char (c : UInt8)
  | reentry

def ScalarType.leaves : (s : ScalarType) → s.Val → List Leaf
  | .integral t, x => [.integral t x]
  | .floating f, x => [.floating f x]
  | .string, cs => .length cs.length :: cs.map .char

mutual

def Ty.leaves : (t : Ty) → t.Val → List Leaf
  | .scalar s, x => s.leaves x
  | .cArray s _, xs => xs.toList.flatMap s.leaves
  | .stdArray (.scalar s) _, xs => xs.toList.flatMap s.leaves
  | .stdArray _ _, _ => [.reentry]
  | .vector t, xs => .length xs.length :: xs.flatMap t.leaves
  | .struct fields, xs => fields.leaves xs

def Pack.leaves : (ts : Pack) → ts.Val → List Leaf
  | .nil, _ => []
  | .cons t ts, (x, xs) => t.leaves x ++ ts.leaves xs

end

/-- The floating leaves that are NaN. -/
def Leaf.isNaN : Leaf → Bool
  | .floating _ x => Borsh.isNaN x
  | _ => false

def Leaf.isReentry : Leaf → Bool
  | .reentry => true
  | _ => false

def Leaf.count? : Leaf → Option Nat
  | .length n => some n
  | _ => none

/-- No floating leaf of the value, at any depth, is NaN. -/
def Ty.NaNFree (t : Ty) (v : t.Val) : Prop := ∀ l ∈ t.leaves v, l.isNaN = false

def Pack.NaNFree (ts : Pack) (vs : ts.Val) : Prop := ∀ l ∈ ts.leaves vs, l.isNaN = false

/-- The lengths of the strings and vectors in a value, at any depth, in traversal order. -/
def Ty.counts (t : Ty) (v : t.Val) : List Nat := (t.leaves v).filterMap Leaf.count?

def Pack.counts (ts : Pack) (vs : ts.Val) : List Nat := (ts.leaves vs).filterMap Leaf.count?

theorem mem_counts {ls : List Leaf} {n : Nat} : n ∈ ls.filterMap Leaf.count? ↔ .length n ∈ ls := by
  rw [List.mem_filterMap]
  constructor
  · rintro ⟨l, hl, hn⟩
    cases l with
    | length k => cases hn; exact hl
    | _ => cases hn
  · intro h
    exact ⟨.length n, h, rfl⟩

instance (t : Ty) (v : t.Val) : Decidable (t.NaNFree v) := inferInstanceAs (Decidable (∀ l ∈ _, _))

instance (ts : Pack) (vs : ts.Val) : Decidable (ts.NaNFree vs) := inferInstanceAs (Decidable (∀ l ∈ _, _))

theorem not_nanFree {t : Ty} {v : t.Val} : (¬ t.NaNFree v) ↔ ∃ l ∈ t.leaves v, l.isNaN = true := by
  simp [Ty.NaNFree]

/-! ## The kinds of leaves of a type -/

inductive LeafKind where
  | integral (t : IntegralType)
  | floating (f : FloatType)
  | length
  | char
  | reentry
  deriving DecidableEq, Repr

def Leaf.kind : Leaf → LeafKind
  | .integral t _ => .integral t
  | .floating f _ => .floating f
  | .length _ => .length
  | .char _ => .char
  | .reentry => .reentry

def ScalarType.kinds : ScalarType → List LeafKind
  | .integral t => [.integral t]
  | .floating f => [.floating f]
  | .string => [.length, .char]

mutual

/-- The kinds of leaves that the values of a type can have. -/
def Ty.kinds : Ty → List LeafKind
  | .scalar s | .cArray s _ | .stdArray (.scalar s) _ => s.kinds
  | .stdArray _ _ => [.reentry]
  | .vector t => .length :: t.kinds
  | .struct fields => fields.kinds

def Pack.kinds : Pack → List LeafKind
  | .nil => []
  | .cons t ts => t.kinds ++ ts.kinds

end

def LeafKind.isFloating : LeafKind → Bool
  | .floating _ => true
  | _ => false

/-- `t` is built without `float` and `double`. -/
def Ty.FloatFree (t : Ty) : Prop := ∀ k ∈ t.kinds, k.isFloating = false

def LeafKind.isNumeric : LeafKind → Bool
  | .integral _ | .floating _ => true
  | _ => false

/-- `t` is built without strings and vectors: its leaves are integers and floats. -/
def Ty.Fixed (t : Ty) : Prop := ∀ k ∈ t.kinds, k.isNumeric = true

instance (t : Ty) : Decidable t.FloatFree := inferInstanceAs (Decidable (∀ k ∈ _, _))

instance (t : Ty) : Decidable t.Fixed := inferInstanceAs (Decidable (∀ k ∈ _, _))

theorem ScalarType.kind_mem : ∀ (s : ScalarType) (x : s.Val), ∀ l ∈ s.leaves x, l.kind ∈ s.kinds
  | .integral _, _, l, hl | .floating _, _, l, hl => by
    cases List.mem_singleton.mp hl
    exact List.mem_cons_self
  | .string, cs, l, hl => by
    rcases List.mem_cons.mp hl with rfl | hl
    · exact List.mem_cons_self
    · obtain ⟨c, _, rfl⟩ := List.mem_map.mp hl
      exact List.mem_cons_of_mem _ List.mem_cons_self

theorem kind_mem_flatMap {α : Type} {leaves : α → List Leaf} {kinds : List LeafKind} {xs : List α}
    (h : ∀ x, ∀ l ∈ leaves x, l.kind ∈ kinds) : ∀ l ∈ xs.flatMap leaves, l.kind ∈ kinds := by
  intro l hl
  obtain ⟨x, _, hx⟩ := List.mem_flatMap.mp hl
  exact h x l hx

mutual

/-- A value has leaves of the kinds of its type only. -/
theorem Ty.kind_mem : ∀ (t : Ty) (v : t.Val), ∀ l ∈ t.leaves v, l.kind ∈ t.kinds
  | .scalar s, x => s.kind_mem x
  | .cArray s _, _ | .stdArray (.scalar s) _, _ => kind_mem_flatMap s.kind_mem
  | .stdArray (.cArray _ _) _, _ | .stdArray (.stdArray _ _) _, _ | .stdArray (.vector _) _, _
  | .stdArray (.struct _) _, _ => by
    intro l hl
    cases List.mem_singleton.mp hl
    exact List.mem_cons_self
  | .vector t, xs => by
    intro l hl
    rcases List.mem_cons.mp hl with rfl | hl
    · exact List.mem_cons_self
    · exact List.mem_cons_of_mem _ (kind_mem_flatMap t.kind_mem l hl)
  | .struct fields, xs => fields.kind_mem xs

theorem Pack.kind_mem : ∀ (ts : Pack) (vs : ts.Val), ∀ l ∈ ts.leaves vs, l.kind ∈ ts.kinds
  | .nil, _ => by intro l hl; cases hl
  | .cons t ts, (x, xs) => by
    intro l hl
    rcases List.mem_append.mp hl with hl | hl
    · exact List.mem_append_left _ (t.kind_mem x l hl)
    · exact List.mem_append_right _ (ts.kind_mem xs l hl)

end

theorem ScalarType.kinds_supported (s : ScalarType) : .reentry ∉ s.kinds := by
  cases s <;> simp [ScalarType.kinds]

mutual

theorem Ty.kinds_supported : ∀ t : Ty, t.Supported → .reentry ∉ t.kinds
  | .scalar s, _ | .cArray s _, _ | .stdArray (.scalar s) _, _ => s.kinds_supported
  | .vector t, ht => by
    intro h
    rcases List.mem_cons.mp h with h | h
    · cases h
    · exact t.kinds_supported ht h
  | .struct fields, ht => fields.kinds_supported ht

theorem Pack.kinds_supported : ∀ ts : Pack, ts.Supported → .reentry ∉ ts.kinds
  | .nil, _ => by intro h; cases h
  | .cons t ts, hts => by
    intro h
    rcases List.mem_append.mp h with h | h
    · exact t.kinds_supported hts.1 h
    · exact ts.kinds_supported hts.2 h

end

theorem Leaf.isReentry_of_kind : ∀ {l : Leaf}, l.kind ≠ .reentry → l.isReentry = false
  | .reentry, h => absurd rfl h
  | .integral _ _, _ | .floating _ _, _ | .length _, _ | .char _, _ => rfl

/-- A value of a supported type has no array at which `visit` re-enters itself. -/
theorem Ty.leaves_supported (t : Ty) (ht : t.Supported) (v : t.Val) : ∀ l ∈ t.leaves v, l.isReentry = false := by
  intro l hl
  apply Leaf.isReentry_of_kind
  intro h
  exact t.kinds_supported ht (h ▸ t.kind_mem v l hl)

theorem Pack.leaves_supported (ts : Pack) (hts : ts.Supported) (vs : ts.Val) :
    ∀ l ∈ ts.leaves vs, l.isReentry = false := by
  intro l hl
  apply Leaf.isReentry_of_kind
  intro h
  exact ts.kinds_supported hts (h ▸ ts.kind_mem vs l hl)

/-- A value of a type without floats has no NaN. -/
theorem Ty.FloatFree.nanFree {t : Ty} (ht : t.FloatFree) (v : t.Val) : t.NaNFree v := by
  intro l hl
  have hkind := ht l.kind (t.kind_mem v l hl)
  cases l with
  | floating f x => cases hkind
  | _ => rfl

end Borsh
