import Borsh.Stack

/-!
# Nesting and grouping

The fields of a struct are passed on as if they stood in its place: `Pack.inline` replaces the structs among the
arguments by their fields, and the structs among these by theirs, and `operator()` does the same to the flat pack as to
the nested one, in both directions and with any end (`nesting_invisible`). On the way, `operator()` on two packs joined
is the two calls one after the other, for any visitor (`call_append`).
-/

namespace Borsh

/-! ## Joined packs -/

/-- The arguments of one call, and then those of another. -/
def Pack.append : Pack → Pack → Pack
  | .nil, us => us
  | .cons t ts, us => .cons t (ts.append us)

def Pack.join : {ts us : Pack} → ts.Val → us.Val → (ts.append us).Val
  | .nil, _, _, ws => ws
  | .cons _ _, _, (v, vs), ws => (v, Pack.join vs ws)

/-- A call of `operator()` on two packs joined is a call on the one and then on the other. -/
theorem call_append (visit : Visitor) : ∀ (ts us : Pack) (vs : ts.Val) (ws : us.Val) (s : Serializer),
    call visit (ts.append us) (Pack.join vs ws, s) =
      (((call visit ts (vs, s)).map fun q => ((q.1, ws), q.2)).bind fun q =>
        (call visit us (q.1.2, q.2)).map fun r => ((q.1.1, r.1), r.2)).map fun q => (Pack.join q.1.1 q.1.2, q.2)
  | .nil, us, _, ws, s => by
    simp only [call, Outcome.map_done, Outcome.done_bind, Outcome.map_map]
    exact (Outcome.map_id _).symm
  | .cons t ts, us, (v, vs), ws, s => by
    simp only [Pack.append, Pack.join, call]
    cases visit t (v, s) with
    | done q =>
      simp only [Outcome.map_done, Outcome.done_bind]
      rw [call_append visit ts us vs ws q.2]
      cases call visit ts (vs, q.2) with
      | done q' =>
        simp only [Outcome.map_done, Outcome.done_bind]
        cases call visit us (ws, q'.2) <;> rfl
      | thrown e q' => rfl
      | fault f => rfl
    | thrown e q => rfl
    | fault f => rfl

/-! ## Structs in place -/

mutual

/-- The type, with every struct that is not in a vector replaced by its fields. -/
def Ty.inline : Ty → Pack
  | .scalar s => .cons (.scalar s) .nil
  | .cArray s n => .cons (.cArray s n) .nil
  | .stdArray t n => .cons (.stdArray t n) .nil
  | .vector t => .cons (.vector t) .nil
  | .struct fields => fields.inline

def Pack.inline : Pack → Pack
  | .nil => .nil
  | .cons t ts => t.inline.append ts.inline

end

mutual

def Ty.inlineVal : (t : Ty) → t.Val → t.inline.Val
  | .scalar _, x => (x, ())
  | .cArray _ _, xs => (xs, ())
  | .stdArray _ _, xs => (xs, ())
  | .vector _, xs => (xs, ())
  | .struct fields, xs => fields.inlineVal xs

def Pack.inlineVal : (ts : Pack) → ts.Val → ts.inline.Val
  | .nil, _ => ()
  | .cons t ts, (x, xs) => Pack.join (t.inlineVal x) (ts.inlineVal xs)

end

/-- A call with one argument. -/
theorem call_single (visit : Visitor) (t : Ty) (v : t.Val) (s : Serializer) :
    call visit (.cons t .nil) ((v, ()), s) = (visit t (v, s)).map fun q => ((q.1, ()), q.2) := by
  simp only [call]
  cases visit t (v, s) <;> rfl

mutual

theorem visit_inline (host : Endian) : ∀ (t : Ty) (n : Nat), t.depth ≤ n → ∀ (v : t.Val) (s : Serializer),
    call (visit host n) t.inline (t.inlineVal v, s) = (visit host n t (v, s)).map fun q => (t.inlineVal q.1, q.2)
  | .scalar st, n, _, v, s => call_single (visit host n) (.scalar st) v s
  | .cArray st m, n, _, v, s => call_single (visit host n) (.cArray st m) v s
  | .stdArray t m, n, _, v, s => call_single (visit host n) (.stdArray t m) v s
  | .vector t, n, _, v, s => call_single (visit host n) (.vector t) v s
  | .struct fields, 0, hn, _, _ => absurd (Ty.struct fields).depth_pos (by omega)
  | .struct fields, n + 1, hn, v, s => by
    have hdepth : fields.depth ≤ n := Ty.depth_struct.mp hn
    rw [visit_struct, call_stable host fields hdepth (Nat.le_succ_of_le hdepth)]
    exact call_inline host fields (n + 1) (Nat.le_succ_of_le hdepth) v s

theorem call_inline (host : Endian) : ∀ (ts : Pack) (n : Nat), ts.depth ≤ n → ∀ (vs : ts.Val) (s : Serializer),
    call (visit host n) ts.inline (ts.inlineVal vs, s) =
      (call (visit host n) ts (vs, s)).map fun q => (ts.inlineVal q.1, q.2)
  | .nil, _, _, _, _ => rfl
  | .cons t ts, n, hn, (v, vs), s => by
    have hmax := Pack.depth_cons.mp hn
    simp only [Pack.inline, Pack.inlineVal]
    rw [call_append, visit_inline host t n hmax.1 v s]
    simp only [call]
    cases visit host n t (v, s) with
    | done q =>
      simp only [Outcome.map_done, Outcome.done_bind]
      rw [call_inline host ts n hmax.2 vs q.2]
      cases call (visit host n) ts (vs, q.2) <;> rfl
    | thrown e q => rfl
    | fault f => rfl

end

/-! ## Flat packs -/

def Ty.isStruct : Ty → Bool
  | .struct _ => true
  | _ => false

/-- No argument is a struct. -/
def Pack.Flat : Pack → Prop
  | .nil => True
  | .cons t ts => t.isStruct = false ∧ ts.Flat

theorem Pack.append_flat : ∀ {ts us : Pack}, ts.Flat → us.Flat → (ts.append us).Flat
  | .nil, _, _, hus => hus
  | .cons _ _, _, hts, hus => ⟨hts.1, Pack.append_flat hts.2 hus⟩

mutual

theorem Ty.inline_flat : ∀ t : Ty, t.inline.Flat
  | .scalar _ | .cArray _ _ | .stdArray _ _ | .vector _ => ⟨rfl, trivial⟩
  | .struct fields => fields.inline_flat

theorem Pack.inline_flat : ∀ ts : Pack, ts.inline.Flat
  | .nil => trivial
  | .cons t ts => Pack.append_flat t.inline_flat ts.inline_flat

end

theorem Pack.join_bijective : ∀ ts us : Pack,
    Function.Bijective fun p : ts.Val × us.Val => Pack.join p.1 p.2
  | .nil, us => by
    constructor
    · rintro ⟨⟨⟩, ws⟩ ⟨⟨⟩, ws'⟩ h
      exact congrArg _ h
    · intro ws
      exact ⟨((), ws), rfl⟩
  | .cons t ts, us => by
    obtain ⟨hinj, hsurj⟩ := Pack.join_bijective ts us
    constructor
    · rintro ⟨⟨v, vs⟩, ws⟩ ⟨⟨v', vs'⟩, ws'⟩ h
      obtain ⟨rfl, hrest⟩ := Prod.mk.inj h
      have hpair : (vs, ws) = (vs', ws') := hinj hrest
      obtain ⟨rfl, rfl⟩ := Prod.mk.inj hpair
      rfl
    · rintro ⟨v, rest⟩
      obtain ⟨⟨vs, ws⟩, rfl⟩ := hsurj rest
      exact ⟨((v, vs), ws), rfl⟩

/-- A single argument and the pack of it. -/
theorem single_bijective (α : Type) : Function.Bijective fun x : α => (x, ()) := by
  constructor
  · intro x y h
    exact (Prod.mk.inj h).1
  · rintro ⟨x, ⟨⟩⟩
    exact ⟨x, rfl⟩

mutual

theorem Ty.inlineVal_bijective : ∀ t : Ty, Function.Bijective t.inlineVal
  | .scalar s => single_bijective s.Val
  | .cArray s n => single_bijective (List.Vector s.Val n)
  | .stdArray t n => single_bijective (List.Vector t.Val n)
  | .vector t => single_bijective (List t.Val)
  | .struct fields => fields.inlineVal_bijective

theorem Pack.inlineVal_bijective : ∀ ts : Pack, Function.Bijective ts.inlineVal
  | .nil => ⟨fun _ _ _ => rfl, fun _ => ⟨(), rfl⟩⟩
  | .cons t ts => (Pack.join_bijective t.inline ts.inline).comp
      (t.inlineVal_bijective.prodMap ts.inlineVal_bijective)

end

/-- **Nested structs leave no trace**: `operator()` does to the flat pack what it does to the nested one, in either
direction, from any state and with any end, and the values of the two packs are the same up to their nesting. -/
theorem nesting_invisible (host : Endian) (ts : Pack) {n : Nat} (hn : ts.depth ≤ n) :
    ts.inline.Flat ∧ Function.Bijective ts.inlineVal ∧
      ∀ (vs : ts.Val) (s : Serializer), call (visit host n) ts.inline (ts.inlineVal vs, s) =
        (call (visit host n) ts (vs, s)).map fun q => (ts.inlineVal q.1, q.2) :=
  ⟨ts.inline_flat, ts.inlineVal_bijective, call_inline host ts n hn⟩

/-- `Vector2D` of the tests. -/
abbrev vector2D : Ty := .struct (.cons (.scalar (.integral int32)) (.cons (.scalar (.integral int32)) .nil))

/-- `Line` of the tests. -/
abbrev line : Ty := .struct (.cons vector2D (.cons vector2D (.cons (.scalar .string) .nil)))

/-- A line, with its four coordinates and its name passed one by one. -/
theorem nesting_invisible_line :
    call (visit .little 3) (Pack.cons line .nil).inline ((5, 10, 15, 25, [108], ()), ⟨.serialize, [7], 0⟩) =
      .done ((5, 10, 15, 25, [108], ()),
        ⟨.serialize, [7, 5, 0, 0, 0, 10, 0, 0, 0, 15, 0, 0, 0, 25, 0, 0, 0, 1, 0, 0, 0, 108], 0⟩) := by
  have hdepth : (Pack.cons line .nil).depth ≤ 3 := by decide
  have hrule := (nesting_invisible .little (.cons line .nil) hdepth).2.2
    (((5, 10, ()), (15, 25, ()), [108], ()), ()) ⟨.serialize, [7], 0⟩
  exact hrule.trans rfl

end Borsh
