import Borsh.Exact
import Borsh.Frame
import Borsh.Paths

/-!
# Sessions with a serializer

A client uses one `Serializer` again and again, on objects that are `const` and on others, and catches what is thrown.
When it comes to its end, the serializer has kept to its frame (`session_frame`). In the `Serialize` direction the
buffer is known exactly (`session_serialize`): a use that throws leaves the bytes in front of the first NaN in it, and
the next use goes on behind them. In the `Deserialize` direction the uses together read one layout
(`session_deserialize`): it makes no difference in how many uses it is read, and a use on `const` objects reads nothing
and throws.
-/

namespace Borsh

/-- The arguments of a use of `operator()`. -/
structure Arguments where
  ts : Pack
  vs : ts.Val

/-- A use of `operator()`, on objects that are not `const` or on objects that are, not on both at once. -/
inductive Use where
  | mutable (args : Arguments)
  | const (args : Arguments)

def Use.args : Use → Arguments
  | .mutable args => args
  | .const args => args

def Use.leaves (u : Use) : List Leaf := u.args.ts.leaves u.args.vs

/-- The types are supported, and the stack has room for them. -/
def Use.Fits (n : Nat) (u : Use) : Prop := u.args.ts.Supported ∧ u.args.ts.depth ≤ n

/-- The serializer of a client, and the arguments of its uses so far, as these left them behind. -/
structure Client where
  serializer : Serializer
  objects : List Arguments

def Use.step (host : Endian) (n : Nat) : Use → Client → Run Client
  | .mutable ⟨ts, vs⟩, c => (call (visit host n) ts (vs, c.serializer)).map fun q => ⟨q.2, c.objects ++ [⟨ts, q.1⟩]⟩
  | .const ⟨ts, vs⟩, c =>
    (callConst (visitConst host n) ts vs c.serializer).map fun s => ⟨s, c.objects ++ [⟨ts, vs⟩]⟩

/-! ## The frame of a session -/

theorem Use.step_keeps (host : Endian) (n : Nat) (u : Use) (c : Client) :
    (u.step host n c).Leaves fun c' => Frame c.serializer c'.serializer := by
  cases u with
  | mutable args => exact Outcome.Leaves.map (call_keeps (visit_keeps host n) args.ts args.vs c.serializer)
  | const args => exact Outcome.Leaves.map (callConst_keeps (visitConst_keeps host n) args.ts args.vs c.serializer)

/-- **A session that comes to its end has kept to the frame**, whatever its uses are and whichever of them throw: the
direction stays; what was written stays, and the cursor with it; what is read stays, and the cursor moves forward inside
of it. A session that reads a byte outside the buffer comes to no end here. -/
theorem session_frame (host : Endian) (n : Nat) (uses : List Use) (c c' : Client) (es : List (Option Exn))
    (h : Session.run (Use.step host n) uses c = some (c', es)) : Frame c.serializer c'.serializer :=
  Session.run_related (R := fun c c' : Client => Frame c.serializer c'.serializer) (fun c => frame_refl c.serializer)
    (fun h h' => h.trans h') (Use.step_keeps host n) h

/-- A NaN is passed to a serializer that holds a byte, and then a `const` integer. -/
theorem session_frame_nan : ∃ c' es, Session.run (Use.step .little 1)
    [.mutable ⟨.cons (.scalar (.floating .float)) .nil, (⟨0x7FC00000⟩, ())⟩,
      .const ⟨.cons (.scalar (.integral int32)) .nil, (5, ())⟩] ⟨⟨.serialize, [7], 0⟩, []⟩ = some (c', es) ∧
    Frame ⟨.serialize, [7], 0⟩ c'.serializer := by
  have hrun : Session.run (Use.step .little 1)
      [.mutable ⟨.cons (.scalar (.floating .float)) .nil, (⟨0x7FC00000⟩, ())⟩,
        .const ⟨.cons (.scalar (.integral int32)) .nil, (5, ())⟩] ⟨⟨.serialize, [7], 0⟩, []⟩ =
    some (⟨⟨.serialize, [7, 5, 0, 0, 0], 0⟩, [⟨.cons (.scalar (.floating .float)) .nil, (⟨0x7FC00000⟩, ())⟩,
      ⟨.cons (.scalar (.integral int32)) .nil, (5, ())⟩]⟩, [some nanNotAllowed, none]) := rfl
  exact ⟨_, _, hrun, session_frame .little 1 _ _ _ _ hrun⟩

/-! ## The `Serialize` direction -/

theorem writeLeaves_caught (host : Endian) {ls : List Leaf} (hr : ∀ l ∈ ls, l.isReentry = false) (b : List UInt8) :
    (writeLeaves host ls b).caught = some (b ++ written host (beforeNaN ls),
      if ∀ l ∈ ls, l.isNaN = false then none else some nanNotAllowed) := by
  by_cases hn : ∀ l ∈ ls, l.isNaN = false
  · rw [writeLeaves_done host ls b hn hr, beforeNaN_eq_self hn, if_pos hn]
    rfl
  · have hex : ∃ l ∈ ls, l.isNaN = true := by
      simpa using hn
    rw [writeLeaves_nan host ls b hex fun l hl => hr l (List.takeWhile_subset _ hl), if_neg hn]
    rfl

/-- What a use in the `Serialize` direction makes of the client. -/
def Use.write (host : Endian) (u : Use) (c : Client) : Client :=
  ⟨c.serializer.withBuffer (c.serializer.buffer ++ written host (beforeNaN u.leaves)), c.objects ++ [u.args]⟩

theorem Use.step_serialize (host : Endian) {n : Nat} {u : Use} (hu : u.Fits n) {c : Client}
    (hc : c.serializer.direction = .serialize) : (u.step host n c).caught =
      some (u.write host c, if ∀ l ∈ u.leaves, l.isNaN = false then none else some nanNotAllowed) := by
  cases u with
  | mutable args =>
    obtain ⟨hts, hn⟩ := hu
    simp only [step, Outcome.caught_map, call_serialize host args.ts n hn args.vs c.serializer hc,
      writeLeaves_caught host (args.ts.leaves_supported hts args.vs)]
    rfl
  | const args =>
    obtain ⟨hts, hn⟩ := hu
    simp only [step, Outcome.caught_map, callConst_serialize host args.ts hts n hn args.vs c.serializer hc,
      writeLeaves_caught host (args.ts.leaves_supported hts args.vs)]
    rfl

theorem foldl_write (host : Endian) (uses : List Use) (s : Serializer) (objects : List Arguments) :
    uses.foldl (fun c u => Use.write host u c) ⟨s, objects⟩ =
      ⟨s.withBuffer (s.buffer ++ uses.flatMap fun u => written host (beforeNaN u.leaves)),
        objects ++ uses.map Use.args⟩ := by
  induction uses generalizing s objects with
  | nil => simp [Serializer.withBuffer]
  | cons u uses ih =>
    rw [List.foldl_cons, Use.write, ih]
    simp [Serializer.withBuffer]

/-- **The buffer of a session in the `Serialize` direction** holds what it held, and then for each use the leaves in
front of its first NaN. The uses with a NaN throw, and no object is changed. -/
theorem session_serialize (host : Endian) {n : Nat} {uses : List Use} (huses : ∀ u ∈ uses, u.Fits n) (b : List UInt8)
    (p : Nat) : Session.run (Use.step host n) uses ⟨⟨.serialize, b, p⟩, []⟩ =
      some (⟨⟨.serialize, b ++ uses.flatMap (fun u => written host (beforeNaN u.leaves)), p⟩, uses.map Use.args⟩,
        uses.map fun u => if ∀ l ∈ u.leaves, l.isNaN = false then none else some nanNotAllowed) := by
  have hrun := Session.run_effect (I := fun c : Client => c.serializer.direction = .serialize)
    (fun u hu c hc => ⟨Use.step_serialize host (huses u hu) hc, hc⟩) ⟨⟨.serialize, b, p⟩, []⟩ rfl
  rw [hrun, foldl_write]
  rfl

/-- A byte and a NaN in one use, and a `const` byte in the next. -/
theorem session_serialize_nan : Session.run (Use.step .little 1)
    [.mutable ⟨.cons (.scalar (.integral (.int .unsigned .w8))) (.cons (.scalar (.floating .float)) .nil),
        (1, ⟨0x7FC00000⟩, ())⟩,
      .const ⟨.cons (.scalar (.integral (.int .unsigned .w8))) .nil, (2, ())⟩] ⟨⟨.serialize, [7], 0⟩, []⟩ =
    some (⟨⟨.serialize, [7, 1, 2], 0⟩,
      [⟨.cons (.scalar (.integral (.int .unsigned .w8))) (.cons (.scalar (.floating .float)) .nil),
          (1, ⟨0x7FC00000⟩, ())⟩,
        ⟨.cons (.scalar (.integral (.int .unsigned .w8))) .nil, (2, ())⟩]⟩, [some nanNotAllowed, none]) := by
  refine (session_serialize .little (fun u hu => ?_) [7] 0).trans rfl
  rcases List.mem_cons.mp hu with rfl | hu
  · exact ⟨⟨trivial, trivial, trivial⟩, by decide⟩
  · obtain rfl := List.mem_singleton.mp hu
    exact ⟨⟨trivial, trivial⟩, by decide⟩

/-! ## The `Deserialize` direction -/

/-- What `visit(const T&)` throws in the `Deserialize` direction. -/
def cannotDeserialize : Exn := .runtimeError "Cannot deserialize into a const object"

/-- A use that is to read into `const` objects throws, if there are any. -/
def Use.refusal : Use → Option Exn
  | .const ⟨.cons _ _, _⟩ => some cannotDeserialize
  | _ => none

/-- The uses may leave the arguments behind when they read the leaves: objects that are not `const` get any values, and
objects that are get none. -/
inductive Replies : List Use → List Arguments → List Leaf → Prop
  | nil : Replies [] [] []
  | mutable {uses : List Use} {replies : List Arguments} {ls : List Leaf} (ts : Pack) (old vs : ts.Val) :
    Replies uses replies ls → Replies (.mutable ⟨ts, old⟩ :: uses) (⟨ts, vs⟩ :: replies) (ts.leaves vs ++ ls)
  | const {uses : List Use} {replies : List Arguments} {ls : List Leaf} (args : Arguments) :
    Replies uses replies ls → Replies (.const args :: uses) (args :: replies) ls

/-- A use on objects that are not `const` consumes the leaves of what it leaves behind. -/
theorem Use.step_mutable (host : Endian) {n : Nat} {ts : Pack} (hn : ts.depth ≤ n) (old : ts.Val) {c : Client}
    (hc : c.serializer.direction = .deserialize) {q : Client × Option Exn} :
    (Use.step host n (.mutable ⟨ts, old⟩) c).caught = some q ↔
      ∃ vs s, Consumes host (ts.leaves vs) c.serializer s ∧ q = (⟨s, c.objects ++ [⟨ts, vs⟩]⟩, none) := by
  have hnothrow : ∀ e r, call (visit host n) ts (old, c.serializer) ≠ .thrown e r := fun e r => by
    rw [call_deserialize host ts n hn old c.serializer hc]
    exact Outcome.ofExcept_ne_thrown
  simp only [Use.step, Outcome.caught_map, Option.map_eq_some_iff]
  constructor
  · intro h
    obtain ⟨r, hr, rfl⟩ := h
    obtain ⟨⟨vs, s⟩, hdone, rfl⟩ := (Outcome.caught_iff_done hnothrow).mp hr
    exact ⟨vs, s, (call_done_iff host hn old vs hc).mp hdone, rfl⟩
  · intro h
    obtain ⟨vs, s, hconsumes, rfl⟩ := h
    have hdone := (call_done_iff host hn old vs hc).mpr hconsumes
    exact ⟨_, (Outcome.caught_iff_done hnothrow).mpr ⟨_, hdone, rfl⟩, rfl⟩

/-- A use on `const` objects changes nothing, and throws if there are any. -/
theorem Use.step_const (host : Endian) {n : Nat} {args : Arguments} (hn : args.ts.depth ≤ n) {c : Client}
    (hc : c.serializer.direction = .deserialize) :
    (Use.step host n (.const args) c).caught =
      some (⟨c.serializer, c.objects ++ [args]⟩, (Use.const args).refusal) := by
  obtain ⟨ts, vs⟩ := args
  cases ts with
  | nil => rfl
  | cons t ts =>
    have hpos : 0 < n := Nat.lt_of_lt_of_le t.depth_pos (Pack.depth_cons.mp hn).1
    obtain ⟨m, rfl⟩ := Nat.exists_eq_succ_of_ne_zero (Nat.ne_of_gt hpos)
    obtain ⟨v, vs⟩ := vs
    simp only [Use.step, callConst, visitConst, hc]
    rfl

/-- **The uses of a session in the `Deserialize` direction read one layout together**, from the cursor on, whatever the
objects held before: the session comes to its end exactly when a layout of all that its uses leave behind, one after the
other, stands at the cursor, and the cursor ends behind it. Only the uses on `const` objects throw. -/
theorem session_deserialize (host : Endian) {n : Nat} {uses : List Use} (hn : ∀ u ∈ uses, u.args.ts.depth ≤ n)
    (c c' : Client) (hc : c.serializer.direction = .deserialize) (es : List (Option Exn)) :
    Session.run (Use.step host n) uses c = some (c', es) ↔
      ∃ replies ls, Replies uses replies ls ∧ Consumes host ls c.serializer c'.serializer ∧
        c'.objects = c.objects ++ replies ∧ es = uses.map Use.refusal := by
  induction uses generalizing c es with
  | nil =>
    constructor
    · intro h
      cases h
      exact ⟨[], [], .nil, consumes_nil_iff.mpr rfl, by simp, rfl⟩
    · intro h
      obtain ⟨replies, ls, hreplies, hconsumes, hobjects, rfl⟩ := h
      cases hreplies
      have hserializer := consumes_nil_iff.mp hconsumes
      rw [List.append_nil] at hobjects
      obtain ⟨s, objects⟩ := c
      obtain ⟨s', objects'⟩ := c'
      cases hserializer
      cases hobjects
      rfl
  | cons u uses ih =>
    have hn' : ∀ u ∈ uses, u.args.ts.depth ≤ n := fun w hw => hn w (List.mem_cons_of_mem _ hw)
    have hu : u.args.ts.depth ≤ n := hn u List.mem_cons_self
    rw [Session.run_cons_iff]
    cases u with
    | const args =>
      have hargs : args.ts.depth ≤ n := hu
      rw [Use.step_const host hargs hc]
      have hrest := fun es => ih hn' ⟨c.serializer, c.objects ++ [args]⟩ hc es
      constructor
      · intro h
        obtain ⟨q, es', hq, hrun, hes⟩ := h
        cases hq
        obtain ⟨replies, ls, hreplies, hconsumes, hobjects, rfl⟩ := (hrest _).mp hrun
        exact ⟨args :: replies, ls, .const args hreplies, hconsumes, by simpa using hobjects, hes⟩
      · intro h
        obtain ⟨replies, ls, hreplies, hconsumes, hobjects, hes⟩ := h
        cases hreplies with
        | const _ hreplies =>
          refine ⟨_, uses.map Use.refusal, rfl, ?_, hes⟩
          exact (hrest _).mpr ⟨_, ls, hreplies, hconsumes, by simpa using hobjects, rfl⟩
    | mutable args =>
      obtain ⟨ts, old⟩ := args
      have hts : ts.depth ≤ n := hu
      constructor
      · intro h
        obtain ⟨q, es', hq, hrun, hes⟩ := h
        obtain ⟨vs, s, hfirst, rfl⟩ := (Use.step_mutable host hts old hc).mp hq
        have hs : s.direction = .deserialize := hfirst.direction_eq.trans hc
        obtain ⟨replies, ls, hreplies, hconsumes, hobjects, rfl⟩ := (ih hn' ⟨s, _⟩ hs _).mp hrun
        exact ⟨_, _, .mutable ts old vs hreplies, consumes_append_iff.mpr ⟨s, hfirst, hconsumes⟩,
          by simpa using hobjects, hes⟩
      · intro h
        obtain ⟨replies, ls, hreplies, hconsumes, hobjects, hes⟩ := h
        cases hreplies with
        | mutable _ _ vs hreplies =>
          obtain ⟨s, hfirst, hrest⟩ := consumes_append_iff.mp hconsumes
          have hs : s.direction = .deserialize := hfirst.direction_eq.trans hc
          refine ⟨_, uses.map Use.refusal, (Use.step_mutable host hts old hc).mpr ⟨vs, s, hfirst, rfl⟩, ?_, hes⟩
          exact (ih hn' ⟨s, _⟩ hs _).mpr ⟨_, _, hreplies, hrest, by simpa using hobjects, rfl⟩

/-- A byte is read in each of two uses, with one on a `const` byte between them. -/
theorem session_deserialize_bytes : Session.run (Use.step .little 1)
    [.mutable ⟨.cons (.scalar (.integral (.int .unsigned .w8))) .nil, (9, ())⟩,
      .const ⟨.cons (.scalar (.integral (.int .unsigned .w8))) .nil, (8, ())⟩,
      .mutable ⟨.cons (.scalar (.integral (.int .unsigned .w8))) .nil, (9, ())⟩]
    ⟨⟨.deserialize, [1, 2, 3], 1⟩, []⟩ =
    some (⟨⟨.deserialize, [1, 2, 3], 3⟩, [⟨.cons (.scalar (.integral (.int .unsigned .w8))) .nil, (2, ())⟩,
      ⟨.cons (.scalar (.integral (.int .unsigned .w8))) .nil, (8, ())⟩,
      ⟨.cons (.scalar (.integral (.int .unsigned .w8))) .nil, (3, ())⟩]⟩, [none, some cannotDeserialize, none]) := by
  refine (session_deserialize .little (fun u hu => ?_) _ _ rfl _).mpr ⟨_, _,
    .mutable _ _ (2, ()) (.const _ (.mutable _ _ (3, ()) .nil)), ⟨[2, 3], [],
      [.integral (.int .unsigned .w8) [2], .integral (.int .unsigned .w8) [3]], rfl, ?_, rfl⟩, rfl, rfl⟩
  · simp at hu
    rcases hu with rfl | rfl | rfl <;> decide
  · exact ⟨rfl, .cons (.integral rfl) (.cons (.integral rfl) .nil)⟩

end Borsh
