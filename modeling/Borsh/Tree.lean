import Borsh.Frame
import Borsh.Portability
import Borsh.Stack

/-!
# Structs that contain themselves

A struct may have a vector of structs of its own type, and its user-written `serialize` then passes that vector too.
`Node ts` is such a struct, with the fields `ts` in front of the vector. `serialize(Node&)` and `visit` are then
mutually recursive along the values: the one calls `visit` on the vector, and the other calls `serialize(Node&)` on the
elements.

On a stack with room for the depth of the tree, the encoder writes the leaves of the tree (`serializeNode_serialize`),
and the decoder returns a tree exactly from the layouts of its leaves (`tree_decoded_iff`), so that what is written is
read back (`tree_round_trip`). But the depth is not known from the type: the bytes decide how deep the decoder calls
itself (`tree_overflow`).
-/

namespace Borsh

/-- `struct Node { ...; std::vector<Node> children; }`. -/
inductive Node (ts : Pack) where
  | mk (fields : ts.Val) (children : List (Node ts))

variable {ts : Pack}

mutual

/-- An induction over a tree, from the children of a node to the node. -/
theorem Node.induction {P : Node ts → Prop}
    (h : ∀ fields (children : List (Node ts)), (∀ c ∈ children, P c) → P (.mk fields children)) : ∀ node, P node
  | .mk fields children => h fields children (Node.induction_children h children)

theorem Node.induction_children {P : Node ts → Prop}
    (h : ∀ fields (children : List (Node ts)), (∀ c ∈ children, P c) → P (.mk fields children)) :
    ∀ children : List (Node ts), ∀ c ∈ children, P c
  | [], _, hc => absurd hc List.not_mem_nil
  | node :: nodes, c, hc => by
    rcases List.mem_cons.mp hc with heq | hc
    · rw [heq]
      exact Node.induction h node
    · exact Node.induction_children h nodes c hc

end

/-- `Node{}`. -/
def Node.initial : Node ts := .mk ts.initial []

/-- `serialize(Node&, Serializer&)`: the user's function passes the fields and then the children. -/
def serializeNode (visit : Visitor) (visitChildren : List (Node ts) × Serializer → Run (List (Node ts) × Serializer)) :
    Node ts × Serializer → Run (Node ts × Serializer)
  | (.mk fields children, s) =>
    (((call visit ts (fields, s)).map fun (fields, s) => ((fields, children), s)).bind fun ((fields, children), s) =>
      (visitChildren (children, s)).map fun (children, s) => ((fields, children), s)).map
        fun ((fields, children), s) => (.mk fields children, s)

/-- The body of the loop that reads a vector: `T::value_type element;`, its assignment and
`value.push_back(element);`. -/
def pushElement {α : Type} (element : Serializer → Run (α × Serializer)) :
    List α × Serializer → Run (List α × Serializer)
  | (value, s) => (element s).leave (fun (element, s) => (value ++ [element], s)) (fun (_, s) => (value, s))

/-- `visit(T&)` for the vector of children, when the stack has room for `n` calls of `visit`. -/
def visitChildren (host : Endian) : Nat → List (Node ts) × Serializer → Run (List (Node ts) × Serializer)
  | 0, _ => .fault .stackOverflow
  | n + 1, (value, s) =>
    match s.direction with
    | .serialize =>
      (Outcome.forEach (fun item s => (serializeNode (visit host n) (visitChildren host n) (item, s)).map Prod.snd)
        value (s.withBuffer (append host s.buffer int32 (toInt32 value.length)))).map fun s => (value, s)
    | .deserialize => load s.buffer s.bufferPointer int32.size fun bytes =>
      Outcome.times
        (pushElement fun s => serializeNode (visit host n) (visitChildren host n) (Node.initial, s))
        (loopCount (lengthOfBytes host bytes)) ([], s.withPointer (s.bufferPointer + int32.size))

/-! ## What a tree is made of -/

mutual

/-- The calls of `visit` that are open at the same time while the fields or the children of a node are visited. -/
def Node.depth : Node ts → Nat
  | .mk _ children => max ts.depth (1 + Node.depths children)

def Node.depths : List (Node ts) → Nat
  | [] => 0
  | node :: nodes => max node.depth (Node.depths nodes)

end

mutual

/-- The leaves of the fields, the number of the children, and the leaves of these. -/
def Node.leaves : Node ts → List Leaf
  | .mk fields children => ts.leaves fields ++ .length children.length :: Node.leavesOf children

def Node.leavesOf : List (Node ts) → List Leaf
  | [] => []
  | node :: nodes => node.leaves ++ Node.leavesOf nodes

end

/-- No floating leaf of the tree is NaN. -/
def Node.NaNFree (node : Node ts) : Prop := ∀ l ∈ node.leaves, l.isNaN = false

/-- The lengths in the tree: those in the fields, and the numbers of children. -/
def Node.counts (node : Node ts) : List Nat := node.leaves.filterMap Leaf.count?

instance (node : Node ts) : Decidable node.NaNFree := inferInstanceAs (Decidable (∀ l ∈ _, _))

theorem Node.depth_of_mem {c : Node ts} : ∀ {children : List (Node ts)}, c ∈ children → c.depth ≤ Node.depths children
  | node :: nodes, hc => by
    rw [Node.depths]
    rcases List.mem_cons.mp hc with rfl | hc
    · exact Nat.le_max_left _ _
    · exact (Node.depth_of_mem hc).trans (Nat.le_max_right _ _)

theorem Node.leavesOf_eq : ∀ children : List (Node ts), Node.leavesOf children = children.flatMap Node.leaves
  | [] => rfl
  | node :: nodes => by rw [Node.leavesOf, Node.leavesOf_eq nodes, List.flatMap_cons]

theorem Node.leaves_mk (fields : ts.Val) (children : List (Node ts)) :
    (Node.mk fields children).leaves =
      ts.leaves fields ++ ([.length children.length] ++ children.flatMap Node.leaves) := by
  rw [Node.leaves, Node.leavesOf_eq]
  rfl

theorem Node.leaves_supported (hts : ts.Supported) : ∀ node : Node ts, ∀ l ∈ node.leaves, l.isReentry = false := by
  refine Node.induction fun fields children ih l hl => ?_
  rw [Node.leaves_mk] at hl
  rcases List.mem_append.mp hl with hl | hl
  · exact ts.leaves_supported hts fields l hl
  · rcases List.mem_append.mp hl with hl | hl
    · cases List.mem_singleton.mp hl
      rfl
    · obtain ⟨c, hc, hl⟩ := List.mem_flatMap.mp hl
      exact ih c hc l hl

/-- A node needs a stack for one call of `visit` at least. -/
theorem Node.exists_stack {fields : ts.Val} {children : List (Node ts)} {n : Nat}
    (hn : (Node.mk fields children).depth ≤ n) :
    ∃ m, n = m + 1 ∧ ts.depth ≤ m + 1 ∧ ∀ c ∈ children, c.depth ≤ m := by
  rw [Node.depth] at hn
  refine ⟨n - 1, by omega, by omega, fun c hc => ?_⟩
  have hdepth := Node.depth_of_mem hc
  omega

/-! ## The encoder -/

theorem visitChildren_serialize {host : Endian} {n : Nat} {children : List (Node ts)}
    (h : ∀ c ∈ children, ∀ s, s.direction = .serialize → serializeNode (visit host n) (visitChildren host n) (c, s) =
      (writeLeaves host c.leaves s.buffer).map fun b => (c, s.withBuffer b)) {s : Serializer}
    (hs : s.direction = .serialize) : visitChildren host (n + 1) (children, s) =
      (writeLeaves host (.length children.length :: children.flatMap Node.leaves) s.buffer).map
        fun b => (children, s.withBuffer b) := by
  have hitem : ∀ c ∈ children, ∀ b,
      (serializeNode (visit host n) (visitChildren host n) (c, s.withBuffer b)).map Prod.snd =
      (Outcome.forEach (writeLeaf host) c.leaves b).map s.withBuffer := fun c hc b => by
    rw [h c hc (s.withBuffer b) hs, Outcome.map_map]
    rfl
  simp only [visitChildren, hs]
  rw [Outcome.forEach_map children hitem, ← Outcome.forEach_flatMap, Outcome.map_map]
  rfl

/-- The encoder writes the leaves of the tree, and leaves the tree as it is. -/
theorem serializeNode_serialize (host : Endian) : ∀ (node : Node ts) (n : Nat), node.depth ≤ n → ∀ s,
    s.direction = .serialize → serializeNode (visit host n) (visitChildren host n) (node, s) =
      (writeLeaves host node.leaves s.buffer).map fun b => (node, s.withBuffer b) := by
  refine Node.induction fun fields children ih n hn s hs => ?_
  obtain ⟨m, rfl, hfields, hchildren⟩ := Node.exists_stack hn
  have hrest : ∀ b, (visitChildren host (m + 1) (children, s.withBuffer b)).map (fun q => ((fields, q.1), q.2)) =
      (writeLeaves host ([.length children.length] ++ children.flatMap Node.leaves) b).map
        fun b => ((fields, children), s.withBuffer b) := fun b => by
    rw [visitChildren_serialize (s := s.withBuffer b) (fun c hc => ih c hc m (hchildren c hc)) hs, Outcome.map_map]
    rfl
  simp only [serializeNode]
  rw [call_serialize host ts (m + 1) hfields fields s hs, Outcome.map_map, Node.leaves_mk]
  simp only [writeLeaves, Outcome.forEach_append] at hrest ⊢
  rw [Outcome.map_bind hrest, Outcome.map_map]
  rfl

/-! ## The decoder -/

/-- A load that returns takes its bytes from the buffer. -/
theorem load_eq_done {σ : Type} {mem : List UInt8} {p n : Nat} {use : List UInt8 → Run σ} {q : σ} (hn : 0 < n) :
    load mem p n use = .done q ↔ ∃ bytes rest, mem.drop p = bytes ++ rest ∧ bytes.length = n ∧ use bytes = .done q := by
  unfold load
  constructor
  · intro h
    split at h
    · rename_i hle
      refine ⟨(mem.drop p).take n, (mem.drop p).drop n, (List.take_append_drop n _).symm, ?_, h⟩
      rw [List.length_take, List.length_drop]
      omega
    · cases h
  · intro h
    obtain ⟨bytes, rest, hsplit, rfl, huse⟩ := h
    have hlength := congrArg List.length hsplit
    rw [List.length_drop, List.length_append] at hlength
    rw [if_pos (by omega), hsplit, List.take_left]
    exact huse

/-- The children are read behind their number. -/
theorem visitChildren_done_iff {host : Endian} {n : Nat} {old children : List (Node ts)} {s s' : Serializer}
    (hs : s.direction = .deserialize) : visitChildren host (n + 1) (old, s) = .done (children, s') ↔
      ∃ k s₁, Consumes host [.length k] s s₁ ∧
        Outcome.times (pushElement fun s => serializeNode (visit host n) (visitChildren host n) (Node.initial, s)) k
          ([], s₁) = .done (children, s') := by
  simp only [visitChildren, hs]
  rw [load_eq_done (by decide)]
  constructor
  · intro h
    obtain ⟨bytes, rest, hsplit, hbytes, hloop⟩ := h
    exact ⟨_, _, consumes_length_iff.mpr ⟨bytes, rest, hsplit, hbytes, rfl, rfl⟩, hloop⟩
  · intro h
    obtain ⟨k, s₁, hconsumes, hloop⟩ := h
    obtain ⟨bytes, rest, hsplit, hbytes, rfl, rfl⟩ := consumes_length_iff.mp hconsumes
    exact ⟨bytes, rest, hsplit, hbytes, hloop⟩

section Loop

variable {α : Type} {host : Endian} {element : Serializer → Run (α × Serializer)} {leaves : α → List Leaf}

/-- A loop reads items that are laid out one after the other, when its body reads each of them. -/
theorem times_of_consumes : ∀ {as : List α}, (∀ a ∈ as, ∀ s s', s.direction = .deserialize →
    Consumes host (leaves a) s s' → element s = .done (a, s')) → ∀ (acc : List α) (s s' : Serializer),
      s.direction = .deserialize → Consumes host (as.flatMap leaves) s s' →
        Outcome.times (pushElement element) as.length (acc, s) = .done (acc ++ as, s')
  | [], _, acc, s, s', _, h => by
    obtain rfl := consumes_nil_iff.mp h
    rw [List.append_nil]
    rfl
  | a :: as, helement, acc, s, s', hs, h => by
    rw [List.flatMap_cons] at h
    obtain ⟨s₁, hfirst, hrest⟩ := consumes_append_iff.mp h
    have htail := times_of_consumes (fun c hc => helement c (List.mem_cons_of_mem a hc)) (acc ++ [a]) s₁ s'
      (hfirst.direction_eq.trans hs) hrest
    rw [List.append_assoc] at htail
    rw [List.length_cons, Outcome.times, pushElement, helement a List.mem_cons_self s s₁ hs hfirst]
    exact htail

/-- What a loop reads is laid out one after the other, when what its body reads is laid out. -/
theorem consumes_of_times (helement : ∀ a s s', s.direction = .deserialize → element s = .done (a, s') →
    Consumes host (leaves a) s s') : ∀ (n : Nat) (acc as : List α) (s s' : Serializer), s.direction = .deserialize →
      Outcome.times (pushElement element) n (acc, s) = .done (as, s') →
        ∃ read, as = acc ++ read ∧ read.length = n ∧ Consumes host (read.flatMap leaves) s s'
  | 0, acc, as, s, s', _, h => by
    cases h
    exact ⟨[], (List.append_nil _).symm, rfl, consumes_nil_iff.mpr rfl⟩
  | n + 1, acc, as, s, s', hs, h => by
    rw [Outcome.times, pushElement] at h
    cases hfirst : element s with
    | done q =>
      obtain ⟨a, s₁⟩ := q
      rw [hfirst] at h
      have hconsumes := helement a s s₁ hs hfirst
      obtain ⟨read, rfl, hlength, hread⟩ :=
        consumes_of_times helement n (acc ++ [a]) as s₁ s' (hconsumes.direction_eq.trans hs) h
      refine ⟨a :: read, by simp, by simp [hlength], ?_⟩
      rw [List.flatMap_cons]
      exact consumes_append_iff.mpr ⟨s₁, hconsumes, hread⟩
    | thrown e q =>
      rw [hfirst] at h
      cases h
    | fault f =>
      rw [hfirst] at h
      cases h

end Loop

/-- On a stack with room for its depth, a tree is read from any layout of its leaves. -/
theorem serializeNode_of_consumes (host : Endian) : ∀ (node : Node ts) (n : Nat), node.depth ≤ n →
    ∀ (old : Node ts) (s s' : Serializer), s.direction = .deserialize → Consumes host node.leaves s s' →
      serializeNode (visit host n) (visitChildren host n) (old, s) = .done (node, s') := by
  refine Node.induction fun fields children ih n hn old s s' hs h => ?_
  obtain ⟨m, rfl, hfields, hchildren⟩ := Node.exists_stack hn
  rw [Node.leaves_mk] at h
  obtain ⟨s₁, hfirst, hrest⟩ := consumes_append_iff.mp h
  obtain ⟨s₂, hcount, hloop⟩ := consumes_append_iff.mp hrest
  have hs₁ : s₁.direction = .deserialize := hfirst.direction_eq.trans hs
  have htimes := times_of_consumes (fun c hc s s' => ih c hc m (hchildren c hc) Node.initial s s') [] s₂ s'
    (hcount.direction_eq.trans hs₁) hloop
  obtain ⟨stale, children'⟩ := old
  simp only [serializeNode]
  rw [(call_done_iff host hfields stale fields hs).mpr hfirst]
  simp only [Outcome.map_done, Outcome.done_bind]
  rw [(visitChildren_done_iff hs₁).mpr ⟨_, s₂, hcount, htimes⟩]
  rfl

/-- A command with the fields of a node and then one with its children. -/
theorem serializeNode_eq_done {visit : Visitor}
    {visitChildren : List (Node ts) × Serializer → Run (List (Node ts) × Serializer)} {old node : Node ts}
    {s s' : Serializer} (h : serializeNode visit visitChildren (old, s) = .done (node, s')) :
    ∃ fields children stale stale' s₁, node = .mk fields children ∧ call visit ts (stale, s) = .done (fields, s₁) ∧
      visitChildren (stale', s₁) = .done (children, s') := by
  obtain ⟨stale, stale'⟩ := old
  simp only [serializeNode] at h
  cases hfields : call visit ts (stale, s) with
  | done q =>
    rw [hfields] at h
    cases hchildren : visitChildren (stale', q.2) with
    | done r =>
      simp only [Outcome.map_done, Outcome.done_bind, hchildren] at h
      cases h
      exact ⟨q.1, r.1, stale, stale', q.2, rfl, hfields, hchildren⟩
    | thrown e r =>
      simp only [Outcome.map_done, Outcome.done_bind, hchildren] at h
      cases h
    | fault f =>
      simp only [Outcome.map_done, Outcome.done_bind, hchildren] at h
      cases h
  | thrown e q =>
    rw [hfields] at h
    cases h
  | fault f =>
    rw [hfields] at h
    cases h

theorem consumes_of_serializeNode {host : Endian} {n : Nat}
    (h : ∀ (old children : List (Node ts)) (s s' : Serializer), s.direction = .deserialize →
      visitChildren host n (old, s) = .done (children, s') →
        Consumes host ([.length children.length] ++ children.flatMap Node.leaves) s s')
    {old node : Node ts} {s s' : Serializer} (hs : s.direction = .deserialize)
    (hdone : serializeNode (visit host n) (visitChildren host n) (old, s) = .done (node, s')) :
    Consumes host node.leaves s s' := by
  obtain ⟨fields, children, stale, stale', s₁, rfl, hfields, hchildren⟩ := serializeNode_eq_done hdone
  -- the fields are read as on a stack that has room for them
  have hdeep : call (visit host (max n ts.depth)) ts (stale, s) = .done (fields, s₁) := by
    rcases call_below (visit_below host (Nat.le_max_left n ts.depth)) ts (stale, s) with hfault | hsame
    · rw [hfields] at hfault
      cases hfault
    · rw [hsame, hfields]
  have hfirst := (call_done_iff host (Nat.le_max_right n ts.depth) stale fields hs).mp hdeep
  rw [Node.leaves_mk]
  exact consumes_append_iff.mpr ⟨s₁, hfirst, h stale' children s₁ s' (hfirst.direction_eq.trans hs) hchildren⟩

/-- Whatever the stack, children that are read have a layout at the cursor. -/
theorem consumes_of_visitChildren (host : Endian) : ∀ (n : Nat) (old children : List (Node ts)) (s s' : Serializer),
    s.direction = .deserialize → visitChildren host n (old, s) = .done (children, s') →
      Consumes host ([.length children.length] ++ children.flatMap Node.leaves) s s'
  | 0, _, _, _, _, _, h => by cases h
  | n + 1, old, children, s, s', hs, h => by
    obtain ⟨k, s₁, hcount, hloop⟩ := (visitChildren_done_iff hs).mp h
    have helement : ∀ (node : Node ts) s s', s.direction = .deserialize →
        serializeNode (visit host n) (visitChildren host n) (Node.initial, s) = .done (node, s') →
          Consumes host node.leaves s s' := fun node s s' hs h =>
      consumes_of_serializeNode (consumes_of_visitChildren host n) hs h
    obtain ⟨read, rfl, rfl, hread⟩ :=
      consumes_of_times helement k [] children s₁ s' (hcount.direction_eq.trans hs) hloop
    exact consumes_append_iff.mpr ⟨s₁, hcount, hread⟩

/-- **A tree is decoded on some stack exactly from the layouts of its leaves**, and then on every stack with room for
its depth, whatever the node held before. -/
theorem tree_decoded_iff (host : Endian) (old node : Node ts) (s s' : Serializer) (hs : s.direction = .deserialize) :
    ((∃ n, serializeNode (visit host n) (visitChildren host n) (old, s) = .done (node, s')) ↔
      Consumes host node.leaves s s') ∧
    (Consumes host node.leaves s s' → ∀ n, node.depth ≤ n →
      serializeNode (visit host n) (visitChildren host n) (old, s) = .done (node, s')) := by
  refine ⟨⟨?_, ?_⟩, fun h n hn => serializeNode_of_consumes host node n hn old s s' hs h⟩
  · intro h
    obtain ⟨n, hn⟩ := h
    exact consumes_of_serializeNode (consumes_of_visitChildren host n) hs hn
  · intro h
    exact ⟨node.depth, serializeNode_of_consumes host node node.depth le_rfl old s s' hs h⟩

/-- `struct Node { uint8_t value; std::vector<Node> children; }`. -/
abbrev ByteNode : Type := Node (.cons (.scalar (.integral (.int .unsigned .w8))) .nil)

abbrev byteNode (value : BitVec 8) (children : List ByteNode) : ByteNode := .mk (value, ()) children

/-- Two nodes in the order of a big-endian host. -/
theorem tree_decoded_iff_bytes :
    serializeNode (visit .big 2) (visitChildren .big 2)
        (byteNode 9 [], ⟨.deserialize, [7, 5, 0, 0, 0, 1, 6, 0, 0, 0, 0], 1⟩) =
      .done (byteNode 5 [byteNode 6 []], ⟨.deserialize, [7, 5, 0, 0, 0, 1, 6, 0, 0, 0, 0], 11⟩) := by
  refine (tree_decoded_iff .big (byteNode 9 []) (byteNode 5 [byteNode 6 []]) _ _ rfl).2
    ⟨[5, 0, 0, 0, 1, 6, 0, 0, 0, 0], [], [.integral (.int .unsigned .w8) [5], .length [0, 0, 0, 1],
      .integral (.int .unsigned .w8) [6], .length [0, 0, 0, 0]], rfl, ?_, rfl⟩ 2 (by decide)
  exact ⟨rfl, .cons (.integral rfl) (.cons (.length rfl) (.cons (.integral rfl) (.cons (.length rfl) .nil)))⟩

/-! ## The round trip -/

theorem Leaf.exchanges_little : ∀ l : Leaf, l.Exchanges .little .little
  | .integral _ _ | .floating _ _ => rfl
  | .length _ => Or.inl rfl
  | .char _ | .reentry => trivial

/-- On a little-endian host, what was written is a layout of the leaves. -/
theorem consumes_written {ls : List Leaf} (hr : ∀ l ∈ ls, l.isReentry = false)
    (hc : ∀ n, .length n ∈ ls → n ≤ int32Max) (before after : List UInt8) :
    Consumes .little ls ⟨.deserialize, before ++ (written .little ls ++ after), before.length⟩
      ⟨.deserialize, before ++ (written .little ls ++ after), before.length + (written .little ls).length⟩ := by
  obtain ⟨ps, hlayout⟩ := exists_layout .little hr hc
  have hbytes : ls.flatMap (Leaf.input .little) = written .little ls :=
    List.flatMap_congr fun l _ => l.exchanges_little.bytes_eq.symm
  rw [hbytes] at hlayout
  exact ⟨written .little ls, after, ps, List.drop_left, hlayout, rfl⟩

/-- **A tree is read back as it was written**, on a little-endian host and a stack with room for its depth, if there is
no NaN in it and no length above `INT32_MAX`. -/
theorem tree_round_trip (hts : ts.Supported) (node : Node ts) (hnan : node.NaNFree)
    (hc : ∀ k ∈ node.counts, k ≤ int32Max) {n : Nat} (hn : node.depth ≤ n) :
    ∃ bytes : List UInt8,
      (∀ b p, serializeNode (visit .little n) (visitChildren .little n) (node, ⟨.serialize, b, p⟩) =
        .done (node, ⟨.serialize, b ++ bytes, p⟩)) ∧
      ∀ before after old,
        serializeNode (visit .little n) (visitChildren .little n)
          (old, ⟨.deserialize, before ++ (bytes ++ after), before.length⟩) =
        .done (node, ⟨.deserialize, before ++ (bytes ++ after), before.length + bytes.length⟩) := by
  have hr := node.leaves_supported hts
  have hcounts : ∀ k, .length k ∈ node.leaves → k ≤ int32Max := fun k hk => hc k (mem_counts.mpr hk)
  refine ⟨written .little node.leaves, fun b p => ?_, fun before after old => ?_⟩
  · rw [serializeNode_serialize .little node n hn _ rfl, writeLeaves_done .little node.leaves b hnan hr]
    rfl
  · exact serializeNode_of_consumes .little node n hn old _ _ rfl (consumes_written hr hcounts before after)

/-- A node with two children, one of which has a child. -/
theorem tree_round_trip_bytes :
    ∃ bytes : List UInt8,
      serializeNode (visit .little 3) (visitChildren .little 3)
          (byteNode 1 [byteNode 2 [byteNode 3 []], byteNode 4 []], ⟨.serialize, [7], 0⟩) =
        .done (byteNode 1 [byteNode 2 [byteNode 3 []], byteNode 4 []], ⟨.serialize, [7] ++ bytes, 0⟩) ∧
      serializeNode (visit .little 3) (visitChildren .little 3)
          (byteNode 9 [], ⟨.deserialize, [7] ++ (bytes ++ [8]), 1⟩) =
        .done (byteNode 1 [byteNode 2 [byteNode 3 []], byteNode 4 []],
          ⟨.deserialize, [7] ++ (bytes ++ [8]), 1 + bytes.length⟩) := by
  have hsupported : (Pack.cons (.scalar (.integral (.int .unsigned .w8))) .nil).Supported := ⟨trivial, trivial⟩
  obtain ⟨bytes, hwrite, hread⟩ := tree_round_trip hsupported
    (byteNode 1 [byteNode 2 [byteNode 3 []], byteNode 4 []]) (by decide) (by decide) (n := 3) (by decide)
  exact ⟨bytes, hwrite [7] 0, hread [7] [8] (byteNode 9 [])⟩

/-! ## What no visit of a tree changes -/

theorem serializeNode_keeps {host : Endian} {n : Nat}
    (h : ∀ (value : List (Node ts)) s, (visitChildren host n (value, s)).Leaves fun q => Frame s q.2) (node : Node ts)
    (s : Serializer) :
    (serializeNode (visit host n) (visitChildren host n) (node, s)).Leaves fun q => Frame s q.2 := by
  obtain ⟨fields, children⟩ := node
  refine Outcome.Leaves.map ?_
  refine Outcome.Leaves.bind (Outcome.Leaves.map (call_keeps (visit_keeps host n) ts fields s)) fun q hq => ?_
  exact Outcome.Leaves.map ((h q.1.2 q.2).mono fun r hr => hq.trans hr)

theorem visitChildren_keeps (host : Endian) : ∀ (n : Nat) (value : List (Node ts)) (s : Serializer),
    (visitChildren host n (value, s)).Leaves fun q => Frame s q.2
  | 0, _, _ => Outcome.leaves_fault _ _
  | n + 1, value, s => by
    have hnode : ∀ (node : Node ts) s, _ := serializeNode_keeps (visitChildren_keeps host n)
    unfold visitChildren
    cases hs : s.direction with
    | serialize =>
      exact Outcome.Leaves.map (frame_of_items (fun item s _ => Outcome.Leaves.map (hnode item s)) host value hs)
    | deserialize =>
      refine leaves_load fun hle bytes => ?_
      have hlength : Frame s (s.withPointer (s.bufferPointer + int32.size)) :=
        frame_withPointer hs ⟨Nat.le_add_right _ _, fun _ => hle⟩
      have helement : ∀ s, s.direction = .deserialize →
          (serializeNode (visit host n) (visitChildren host n) (Node.initial, s)).Leaves fun q => Frame s q.2 :=
        fun s _ => hnode Node.initial s
      have hloop := frame_of_elements helement (loopCount (lengthOfBytes host bytes))
        (q := ([], s.withPointer (s.bufferPointer + int32.size))) hs
      exact hloop.mono fun r hr => hlength.trans hr

/-! ## How deep the decoder calls itself -/

/-- The bytes from the cursor to the end of the buffer. -/
def Serializer.remaining (s : Serializer) : Nat := s.buffer.length - s.bufferPointer

theorem Frame.remaining_le {s s' : Serializer} (h : Frame s s') (hs : s.direction = .deserialize) :
    s'.remaining ≤ s.remaining := by
  obtain ⟨hbuffer, hpointer⟩ := h.reads hs
  unfold Serializer.remaining
  unfold Ahead at hpointer
  rw [hbuffer]
  omega

theorem avoids_load {σ : Type} {mem : List UInt8} {p n : Nat} {use : List UInt8 → Run σ}
    (h : p + n ≤ mem.length → ∀ bytes, (use bytes).Avoids .stackOverflow) :
    (load mem p n use).Avoids .stackOverflow := by
  unfold load
  split
  · rename_i hle
    exact h hle _
  · intro hf
    cases hf

theorem call_avoids (host : Endian) (hts : ts.Supported) {n : Nat} (hn : ts.depth ≤ n) (fields : ts.Val)
    {s : Serializer} (hs : s.direction = .deserialize) :
    (call (visit host n) ts (fields, s)).Avoids .stackOverflow := by
  rw [call_deserialize host ts n hn fields s hs]
  refine ofExcept_overflow.mpr fun h => ?_
  exact Ty.read_avoids host (.struct ts) hts _ (Reader.runAt_eq_error.mp h)

/-- Each level of the tree takes four bytes, those of the number of children. -/
theorem visitChildren_avoids (host : Endian) (hts : ts.Supported) : ∀ (n : Nat) (value : List (Node ts))
    (s : Serializer), s.direction = .deserialize → s.remaining + 4 * ts.depth < 4 * n →
      (visitChildren host n (value, s)).Avoids .stackOverflow
  | 0, _, _, _, hn => absurd hn (by omega)
  | n + 1, value, s, hs, hn => by
    unfold visitChildren
    simp only [hs]
    refine avoids_load fun hle bytes => ?_
    have hsize : int32.size = 4 := rfl
    rw [hsize] at hle
    -- what the loop leaves behind is still in front of enough stack
    refine Outcome.avoids_times (P := fun q => q.2.direction = .deserialize ∧ q.2.remaining + 4 * ts.depth < 4 * n)
      (fun q hq => ?_) _ _ ⟨hs, ?_⟩
    · obtain ⟨hdirection, hroom⟩ := hq
      have hstays : ∀ s', Frame q.2 s' → s'.direction = .deserialize ∧ s'.remaining + 4 * ts.depth < 4 * n :=
        fun s' h => by
          have hless := h.remaining_le hdirection
          exact ⟨h.direction.trans hdirection, by omega⟩
      constructor
      · refine Outcome.Avoids.leave (Outcome.Avoids.map ?_ _) _ _
        have hfields := call_keeps (visit_keeps host n) ts ts.initial q.2
        refine Outcome.Avoids.bind (P := fun r => Frame q.2 r.2)
          ((call_avoids host hts (by omega) ts.initial hdirection).map _) (Outcome.Leaves.map hfields) fun r hr => ?_
        obtain ⟨hdirection', hroom'⟩ := hstays r.2 hr
        exact (visitChildren_avoids host hts n r.1.2 r.2 hdirection' hroom').map _
      · have hkeeps := serializeNode_keeps (visitChildren_keeps host n) (Node.initial : Node ts) q.2
        exact Outcome.Leaves.leave (hkeeps.mono fun r hr => hstays r.2 hr) (hkeeps.mono fun r hr => hstays r.2 hr)
    · unfold Serializer.remaining at hn ⊢
      simp only [withPointer_buffer, withPointer_bufferPointer, hsize]
      omega

/-- The leaves on the way down `n` levels: at each of them one child, with fresh fields. -/
def descent (ts : Pack) : Nat → List Leaf
  | 0 => []
  | n + 1 => [.length 1] ++ (ts.leaves ts.initial ++ descent ts n)

theorem descent_supported (hts : ts.Supported) : ∀ (n : Nat), ∀ l ∈ descent ts n, l.isReentry = false
  | n + 1, l, hl => by
    rcases List.mem_append.mp hl with hl | hl
    · cases List.mem_singleton.mp hl
      rfl
    · rcases List.mem_append.mp hl with hl | hl
      · exact ts.leaves_supported hts ts.initial l hl
      · exact descent_supported hts n l hl

theorem descent_counts (hts : ts.Supported) : ∀ (n : Nat), ∀ k, .length k ∈ descent ts n → k ≤ int32Max
  | n + 1, k, hk => by
    rcases List.mem_append.mp hk with hk | hk
    · cases List.mem_singleton.mp hk
      decide
    · rcases List.mem_append.mp hk with hk | hk
      · rw [(Pack.initial_fresh hts).empty k hk]
        exact Nat.zero_le _
      · exact descent_counts hts n k hk

theorem descent_size (hts : ts.Supported) : ∀ n : Nat, totalSize (descent ts n) = n * (int32.size + ts.minSize)
  | 0 => (Nat.zero_mul _).symm
  | n + 1 => by
    rw [descent, totalSize_append, totalSize_append, (Pack.initial_fresh hts).size_eq, descent_size hts n, Nat.succ_mul]
    simp only [totalSize_cons, totalSize_nil, Leaf.size]
    omega

/-- On the way down `n` levels the decoder calls itself `n` times. -/
theorem visitChildren_descent (host : Endian) : ∀ (n : Nat) (old : List (Node ts)) (s s' : Serializer),
    s.direction = .deserialize → Consumes host (descent ts n) s s' →
      visitChildren host n (old, s) = .fault .stackOverflow
  | 0, _, _, _, _, _ => rfl
  | n + 1, old, s, s', hs, h => by
    obtain ⟨s₁, hcount, hrest⟩ := consumes_append_iff.mp h
    obtain ⟨s₂, hfields, hdeeper⟩ := consumes_append_iff.mp hrest
    have hs₁ : s₁.direction = .deserialize := hcount.direction_eq.trans hs
    have hs₂ : s₂.direction = .deserialize := hfields.direction_eq.trans hs₁
    have hchildren := visitChildren_descent host n [] s₂ s' hs₂ hdeeper
    -- the fields are read, or they overflow the stack themselves
    have hnode : serializeNode (visit host n) (visitChildren host n) ((Node.initial : Node ts), s₁) =
        .fault .stackOverflow := by
      have hdeep := (call_done_iff host (Nat.le_max_right n ts.depth) ts.initial ts.initial hs₁).mpr hfields
      simp only [serializeNode, Node.initial]
      rcases call_below (visit_below host (Nat.le_max_left n ts.depth)) ts (ts.initial, s₁) with hfault | hsame
      · rw [hfault]
        rfl
      · rw [← hsame, hdeep]
        simp only [Outcome.map_done, Outcome.done_bind]
        rw [hchildren]
        rfl
    obtain ⟨bytes, rest, hsplit, hbytes, hone, rfl⟩ := consumes_length_iff.mp hcount
    have hlength := congrArg List.length hsplit
    rw [List.length_drop, List.length_append] at hlength
    have hpos : 0 < int32.size := by decide
    simp only [visitChildren, hs]
    rw [load, if_pos (by omega), hsplit, ← hbytes, List.take_left, hone, hbytes]
    simp only [Outcome.times, pushElement]
    rw [hnode]
    rfl

/-- **The bytes decide how deep the decoder calls itself.** A stack for `n` calls of `visit` is enough for the trees in
fewer than `4 * n` bytes, up to the calls for the fields of the last node. But some `n * (4 + ts.minSize)` bytes,
wherever they stand, overflow it. -/
theorem tree_overflow (host : Endian) (hts : ts.Supported) (n : Nat) :
    (∀ b p (old : List (Node ts)), b.length - p + 4 * ts.depth < 4 * n →
      visitChildren host n (old, ⟨.deserialize, b, p⟩) ≠ .fault .stackOverflow) ∧
    ∃ bytes : List UInt8, bytes.length = n * (4 + ts.minSize) ∧ ∀ before after (old : List (Node ts)),
      visitChildren host n (old, ⟨.deserialize, before ++ (bytes ++ after), before.length⟩) =
        .fault .stackOverflow := by
  refine ⟨fun b p old h => visitChildren_avoids host hts n old ⟨.deserialize, b, p⟩ rfl h, ?_⟩
  obtain ⟨ps, hlayout⟩ := exists_layout host (descent_supported hts n) (descent_counts hts n)
  refine ⟨_, hlayout.length.trans (descent_size hts n), fun before after old => ?_⟩
  exact visitChildren_descent host n old _ _ rfl ⟨_, after, ps, List.drop_left, hlayout, rfl⟩

/-- Nodes with no other field: the bound on the bytes is exact. -/
theorem tree_overflow_empty :
    (∀ b p (old : List (Node .nil)), b.length - p < 4 * 1000 →
      visitChildren .little 1000 (old, ⟨.deserialize, b, p⟩) ≠ .fault .stackOverflow) ∧
    ∃ bytes : List UInt8, bytes.length = 1000 * 4 ∧ ∀ before after (old : List (Node .nil)),
      visitChildren .little 1000 (old, ⟨.deserialize, before ++ (bytes ++ after), before.length⟩) =
        .fault .stackOverflow := by
  have hsupported : Pack.nil.Supported := trivial
  exact tree_overflow .little hsupported 1000

end Borsh
