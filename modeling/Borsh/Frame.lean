import Borsh.Base.Session
import Borsh.Decode

/-!
# What no use of a serializer changes

Whatever a `Serializer` is used for, with values of any type, on any stack, and whether or not an exception is thrown:
its direction stays, in the `Serialize` direction the buffer only grows at its end and the cursor stays, and in the
`Deserialize` direction the buffer stays and the cursor moves forward and not over its end (`Frame`). Every function of
the library keeps to this when the visitor it is given does (`Keeps`), and so, by induction on the stack, do both
`visit`s (`visit_keeps`, `visitConst_keeps`).
-/

namespace Borsh

/-- The cursor moves from `p` to `p'`: forward, and not over the end. -/
def Ahead (mem : List UInt8) (p p' : Nat) : Prop := p ≤ p' ∧ (p ≤ mem.length → p' ≤ mem.length)

theorem Ahead.trans {mem : List UInt8} {p p' p'' : Nat} (h : Ahead mem p p') (h' : Ahead mem p' p'') :
    Ahead mem p p'' := by
  unfold Ahead at *
  omega

/-- The serializer `s` may become `s'`. -/
structure Frame (s s' : Serializer) : Prop where
  direction : s'.direction = s.direction
  writes : s.direction = .serialize → s.buffer <+: s'.buffer ∧ s'.bufferPointer = s.bufferPointer
  reads : s.direction = .deserialize → s'.buffer = s.buffer ∧ Ahead s.buffer s.bufferPointer s'.bufferPointer

theorem frame_refl (s : Serializer) : Frame s s where
  direction := rfl
  writes _ := ⟨List.prefix_rfl, rfl⟩
  reads _ := ⟨rfl, by unfold Ahead; omega⟩

theorem Frame.trans {s s' s'' : Serializer} (h : Frame s s') (h' : Frame s' s'') : Frame s s'' where
  direction := h'.direction.trans h.direction
  writes hs := by
    obtain ⟨hbuffer, hpointer⟩ := h.writes hs
    obtain ⟨hbuffer', hpointer'⟩ := h'.writes (h.direction.trans hs)
    exact ⟨hbuffer.trans hbuffer', hpointer'.trans hpointer⟩
  reads hs := by
    obtain ⟨hbuffer, hpointer⟩ := h.reads hs
    obtain ⟨hbuffer', hpointer'⟩ := h'.reads (h.direction.trans hs)
    rw [hbuffer] at hbuffer' hpointer'
    exact ⟨hbuffer', hpointer.trans hpointer'⟩

theorem frame_withBuffer {s : Serializer} (hs : s.direction = .serialize) {buffer : List UInt8}
    (h : s.buffer <+: buffer) : Frame s (s.withBuffer buffer) where
  direction := rfl
  writes _ := ⟨h, rfl⟩
  reads hd := by
    rw [hs] at hd
    cases hd

theorem frame_withPointer {s : Serializer} (hs : s.direction = .deserialize) {p : Nat}
    (h : Ahead s.buffer s.bufferPointer p) : Frame s (s.withPointer p) where
  direction := rfl
  writes hd := by
    rw [hs] at hd
    cases hd
  reads _ := ⟨rfl, h⟩

/-! ## `to_bytes` and `from_bytes` -/

theorem append_grows (host : Endian) (buffer : List UInt8) (t : IntegralType) (value : t.Val) :
    buffer <+: append host buffer t value := List.prefix_append buffer _

theorem toBytes_grows (host : Endian) : ∀ (st : ScalarType) (value : st.Val) (buffer : List UInt8),
    (toBytes host st value buffer).Leaves (buffer <+: ·)
  | .integral t, value, buffer => by
    refine Outcome.leaves_done ?_
    split
    · exact (append_grows host _ _ _).trans (append_grows host _ _ _)
    · exact append_grows host _ _ _
  | .floating f, value, buffer => by
    show (toBytesFloat host f value buffer).Leaves (buffer <+: ·)
    unfold toBytesFloat
    split
    · exact Outcome.leaves_thrown List.prefix_rfl
    · refine Outcome.leaves_done ?_
      split
      · exact (append_grows host _ _ _).trans (append_grows host _ _ _)
      · exact append_grows host _ _ _
  | .string, value, buffer => by
    have hloop := Outcome.leaves_forEach (fun _ => List.prefix_rfl) (fun h h' => List.IsPrefix.trans h h')
      (fun (c : UInt8) buffer => Outcome.leaves_done (ε := Exn) (φ := Fault)
        (List.prefix_append buffer [charToByte c]))
    exact (hloop value (append host buffer int32 (toInt32 value.length))).mono fun b hb =>
      (append_grows host _ _ _).trans hb

theorem toBytesArray_grows (host : Endian) (st : ScalarType) {n : Nat} (array : List.Vector st.Val n)
    (buffer : List UInt8) : (toBytesArray host st array buffer).Leaves (buffer <+: ·) :=
  Outcome.leaves_forEach (fun _ => List.prefix_rfl) (fun h h' => List.IsPrefix.trans h h') (toBytes_grows host st) _ _

/-- A reader moves the cursor forward, and not over the end. -/
theorem runAt_ahead {α : Type} (r : Reader Fault UInt8 α) (mem : List UInt8) (p : Nat) :
    (Outcome.ofExcept id (r.runAt mem p) : Run (α × Nat)).Leaves fun q => Ahead mem p q.2 := by
  cases hr : r.runAt mem p with
  | error f => exact Outcome.leaves_fault _ f
  | ok q =>
    refine Outcome.leaves_done ?_
    obtain ⟨a, p'⟩ := q
    obtain ⟨used, rest, hsplit, _, rfl⟩ := Reader.runAt_eq_ok.mp hr
    have hlen := congrArg List.length hsplit
    rw [List.length_drop, List.length_append] at hlen
    show p ≤ p + used.length ∧ (p ≤ mem.length → p + used.length ≤ mem.length)
    omega

theorem fromBytes_ahead (host : Endian) (mem : List UInt8) (st : ScalarType) (value : st.Val) (p : Nat) :
    (fromBytes host mem st (value, p)).Leaves fun q => Ahead mem p q.2 := by
  rw [fromBytes_eq]
  exact runAt_ahead _ mem p

theorem fromBytesArray_ahead (host : Endian) (mem : List UInt8) (st : ScalarType) {n : Nat}
    (array : List.Vector st.Val n) (p : Nat) :
    (fromBytesArray host mem st (array, p)).Leaves fun q => Ahead mem p q.2 := by
  rw [fromBytesArray_eq]
  exact runAt_ahead _ mem p

/-- A load inside the buffer, and what is done with the bytes. -/
theorem leaves_load {σ : Type} {mem : List UInt8} {p n : Nat} {use : List UInt8 → Run σ} {P : σ → Prop}
    (huse : p + n ≤ mem.length → ∀ bytes, (use bytes).Leaves P) : (load mem p n use).Leaves P := by
  unfold load
  split
  · rename_i hle
    exact huse hle _
  · exact Outcome.leaves_fault P _

/-! ## The dispatch -/

/-- The visitor keeps to the frame. -/
def Keeps (visit : Visitor) : Prop := ∀ (t : Ty) (v : t.Val) (s : Serializer),
  (visit t (v, s)).Leaves fun q => Frame s q.2

theorem frame_of_buffer {α : Type} {s : Serializer} (hs : s.direction = .serialize) {o : Run (List UInt8)}
    (h : o.Leaves (s.buffer <+: ·)) (value : α) :
    (o.map fun buffer => (value, s.withBuffer buffer)).Leaves fun q => Frame s q.2 :=
  Outcome.Leaves.map (h.mono fun _ hb => frame_withBuffer hs hb)

theorem frame_of_cursor {α : Type} {s : Serializer} (hs : s.direction = .deserialize) {o : Run (α × Nat)}
    (h : o.Leaves fun q => Ahead s.buffer s.bufferPointer q.2) :
    (o.map fun q => (q.1, s.withPointer q.2)).Leaves fun q => Frame s q.2 :=
  Outcome.Leaves.map (h.mono fun _ hp => frame_withPointer hs hp)

/-- The length and the items of a vector, in the `Serialize` direction. -/
theorem frame_of_items {α : Type} {item : α → Serializer → Run Serializer}
    (hitem : ∀ a s, s.direction = .serialize → (item a s).Leaves (Frame s)) (host : Endian) (value : List α)
    {s : Serializer} (hs : s.direction = .serialize) :
    (Outcome.forEach item value (s.withBuffer (append host s.buffer int32 (toInt32 value.length)))).Leaves
      (Frame s) := by
  have hlength : Frame s (s.withBuffer (append host s.buffer int32 (toInt32 value.length))) :=
    frame_withBuffer hs (append_grows host _ _ _)
  -- the loop stays in the `Serialize` direction
  have hbody : ∀ (a : α) (s : Serializer), (item a s).Leaves fun s' => s.direction = .serialize → Frame s s' :=
    fun a s s' hs' hs => hitem a s hs s' hs'
  have hloop := Outcome.leaves_forEach (fun s _ => frame_refl s)
    (fun hss hss' hs => (hss hs).trans (hss' ((hss hs).direction.trans hs))) hbody value
    (s.withBuffer (append host s.buffer int32 (toInt32 value.length)))
  exact hloop.mono fun s' hs' => hlength.trans (hs' hs)

/-- The loop that reads the elements of a vector. -/
theorem frame_of_elements {α : Type} {element : Serializer → Run (α × Serializer)}
    (helement : ∀ s, s.direction = .deserialize → (element s).Leaves fun q => Frame s q.2) (n : Nat)
    {q : List α × Serializer} (hq : q.2.direction = .deserialize) :
    (Outcome.times (fun q : List α × Serializer =>
      (element q.2).leave (fun r => (q.1 ++ [r.1], r.2)) fun r => (q.1, r.2)) n q).Leaves fun r => Frame q.2 r.2 := by
  -- the loop stays in the `Deserialize` direction
  have hbody : ∀ q : List α × Serializer,
      ((element q.2).leave (fun r => (q.1 ++ [r.1], r.2)) fun r => (q.1, r.2)).Leaves
        fun r => q.2.direction = .deserialize → Frame q.2 r.2 := fun q =>
    Outcome.Leaves.leave (fun r hr hd => helement q.2 hd r hr) fun r hr hd => helement q.2 hd r hr
  have hloop := Outcome.leaves_times (fun q _ => frame_refl q.2)
    (fun hss hss' hd => (hss hd).trans (hss' ((hss hd).direction.trans hd))) hbody n q
  exact hloop.mono fun r hr => hr hq

section Dispatch

variable {host : Endian} {visit : Visitor} (h : Keeps visit)

include h

theorem call_keeps : ∀ (ts : Pack) (vs : ts.Val) (s : Serializer), (call visit ts (vs, s)).Leaves fun q => Frame s q.2
  | .nil, _, s => Outcome.leaves_done (frame_refl s)
  | .cons t ts, (v, vs), s => by
    refine Outcome.Leaves.bind (Outcome.Leaves.map (h t v s)) fun q hq => Outcome.Leaves.map ?_
    exact (call_keeps ts q.1.2 q.2).mono fun r hr => hq.trans hr

theorem serializeWith_keeps : Keeps (serializeWith visit) := by
  have hone : ∀ (t : Ty) (v : t.Val) (s : Serializer), (callOne visit t (v, s)).Leaves fun q => Frame s q.2 :=
    fun t v s => Outcome.Leaves.map (call_keeps h (.cons t .nil) (v, ()) s)
  intro t v s
  cases t with
  | struct fields => exact call_keeps h fields v s
  | scalar st => exact hone (.scalar st) v s
  | cArray st n => exact hone (.cArray st n) v s
  | stdArray t n => exact hone (.stdArray t n) v s
  | vector t => exact hone (.vector t) v s

theorem serializeItem_keeps (t : Ty) (item : t.Val) {s : Serializer} (hs : s.direction = .serialize) :
    (serializeItem host visit t item s).Leaves (Frame s) := by
  have hwith : ∀ (t : Ty) (item : t.Val), ((serializeWith visit t (item, s)).map Prod.snd).Leaves (Frame s) :=
    fun t item => Outcome.Leaves.map (serializeWith_keeps h t item s)
  cases t with
  | scalar st =>
    exact Outcome.Leaves.map ((toBytes_grows host st item s.buffer).mono fun _ hb => frame_withBuffer hs hb)
  | cArray st n =>
    exact Outcome.Leaves.map ((toBytesArray_grows host st item s.buffer).mono fun _ hb => frame_withBuffer hs hb)
  | stdArray t n => exact hwith (.stdArray t n) item
  | vector t => exact hwith (.vector t) item
  | struct fields => exact hwith (.struct fields) item

theorem serializeItems_keeps (t : Ty) (value : List t.Val) {s : Serializer} (hs : s.direction = .serialize) :
    (Outcome.forEach (serializeItem host visit t) value
      (s.withBuffer (append host s.buffer int32 (toInt32 value.length)))).Leaves (Frame s) :=
  frame_of_items (fun item _ hs => serializeItem_keeps h t item hs) host value hs

theorem visitSerialize_keeps (t : Ty) (v : t.Val) {s : Serializer} (hs : s.direction = .serialize) :
    (visitSerialize host visit t (v, s)).Leaves fun q => Frame s q.2 := by
  cases t with
  | scalar st => exact frame_of_buffer hs (toBytes_grows host st v s.buffer) v
  | cArray st n => exact frame_of_buffer hs (toBytesArray_grows host st v s.buffer) v
  | vector t => exact Outcome.Leaves.map (serializeItems_keeps h t v hs)
  | struct fields => exact serializeWith_keeps h (.struct fields) v s
  | stdArray t n =>
    rcases t.scalar_or_not with ⟨st, rfl⟩ | ht
    · exact frame_of_buffer hs (toBytesArray_grows host st v s.buffer) v
    · rw [visitSerialize_stdArray host visit ht]
      exact serializeWith_keeps h (.stdArray t n) v s

theorem deserializeElement_keeps (t : Ty) {s : Serializer} (hs : s.direction = .deserialize) :
    (deserializeElement host visit t s).Leaves fun q => Frame s q.2 := by
  cases t with
  | scalar st => exact frame_of_cursor hs (fromBytes_ahead host s.buffer st st.initial s.bufferPointer)
  | cArray st n => exact frame_of_cursor hs (fromBytesArray_ahead host s.buffer st (Ty.cArray st n).initial _)
  | stdArray t n => exact serializeWith_keeps h (.stdArray t n) _ s
  | vector t => exact serializeWith_keeps h (.vector t) _ s
  | struct fields => exact serializeWith_keeps h (.struct fields) _ s

theorem visitDeserialize_keeps (t : Ty) (v : t.Val) {s : Serializer} (hs : s.direction = .deserialize) :
    (visitDeserialize host visit t (v, s)).Leaves fun q => Frame s q.2 := by
  cases t with
  | scalar st => exact frame_of_cursor hs (fromBytes_ahead host s.buffer st v s.bufferPointer)
  | cArray st n => exact frame_of_cursor hs (fromBytesArray_ahead host s.buffer st v s.bufferPointer)
  | vector t =>
    simp only [visitDeserialize]
    refine leaves_load fun hle bytes => ?_
    have hlength : Frame s (s.withPointer (s.bufferPointer + int32.size)) :=
      frame_withPointer hs ⟨Nat.le_add_right _ _, fun _ => hle⟩
    have helement : ∀ s, s.direction = .deserialize →
        (deserializeElement host visit t s).Leaves fun q => Frame s q.2 := fun s hs => deserializeElement_keeps h t hs
    have hloop := frame_of_elements helement (loopCount (lengthOfBytes host bytes))
      (q := ([], s.withPointer (s.bufferPointer + int32.size))) hs
    exact hloop.mono fun r hr => hlength.trans hr
  | struct fields => exact serializeWith_keeps h (.struct fields) v s
  | stdArray t n =>
    rcases t.scalar_or_not with ⟨st, rfl⟩ | ht
    · exact frame_of_cursor hs (fromBytesArray_ahead host s.buffer st v s.bufferPointer)
    · rw [visitDeserialize_stdArray host visit ht]
      exact serializeWith_keeps h (.stdArray t n) v s

end Dispatch

/-- **`visit` keeps to the frame**, for any type and on any stack. -/
theorem visit_keeps (host : Endian) : ∀ n : Nat, Keeps (visit host n)
  | 0, _, _, _ => Outcome.leaves_fault _ _
  | n + 1, t, v, s => by
    unfold visit
    cases hs : s.direction with
    | serialize => exact visitSerialize_keeps (visit_keeps host n) t v hs
    | deserialize => exact visitDeserialize_keeps (visit_keeps host n) t v hs

/-! ## Objects that are `const` -/

theorem callConst_keeps {visitConst : ConstVisitor} (h : ∀ t v s, (visitConst t v s).Leaves (Frame s)) :
    ∀ (ts : Pack) (vs : ts.Val) (s : Serializer), (callConst visitConst ts vs s).Leaves (Frame s)
  | .nil, _, s => Outcome.leaves_done (frame_refl s)
  | .cons t ts, (v, vs), s => by
    refine Outcome.Leaves.bind (h t v s) fun s' hs' => ?_
    exact (callConst_keeps h ts vs s').mono fun s'' hs'' => hs'.trans hs''

theorem serializeWithConst_keeps {visitConst : ConstVisitor} (h : ∀ t v s, (visitConst t v s).Leaves (Frame s))
    (t : Ty) (v : t.Val) (s : Serializer) : (serializeWithConst visitConst t v s).Leaves (Frame s) := by
  cases t with
  | struct fields => exact callConst_keeps h fields v s
  | scalar st => exact callConst_keeps h (.cons (.scalar st) .nil) (v, ()) s
  | cArray st n => exact callConst_keeps h (.cons (.cArray st n) .nil) (v, ()) s
  | stdArray t n => exact callConst_keeps h (.cons (.stdArray t n) .nil) (v, ()) s
  | vector t => exact callConst_keeps h (.cons (.vector t) .nil) (v, ()) s

theorem visitConst_keeps (host : Endian) : ∀ (n : Nat) (t : Ty) (v : t.Val) (s : Serializer),
    (visitConst host n t v s).Leaves (Frame s)
  | 0, _, _, _ => Outcome.leaves_fault _ _
  | n + 1, t, v, s => by
    have hwith := serializeWithConst_keeps (visitConst_keeps host n)
    unfold visitConst
    cases hs : s.direction with
    | deserialize => exact Outcome.leaves_thrown (frame_refl s)
    | serialize =>
      cases t with
      | scalar st =>
        exact Outcome.Leaves.map ((toBytes_grows host st v s.buffer).mono fun _ hb => frame_withBuffer hs hb)
      | cArray st m =>
        exact Outcome.Leaves.map ((toBytesArray_grows host st v s.buffer).mono fun _ hb => frame_withBuffer hs hb)
      | vector t => exact serializeItems_keeps (visit_keeps host n) t v hs
      | struct fields => exact hwith (.struct fields) v s
      | stdArray t m =>
        rcases t.scalar_or_not with ⟨st, rfl⟩ | ht
        · exact Outcome.Leaves.map ((toBytesArray_grows host st v s.buffer).mono fun _ hb => frame_withBuffer hs hb)
        · rw [visitConstSerialize_stdArray host (visit host n) (visitConst host n) ht]
          exact hwith (.stdArray t m) v s

end Borsh