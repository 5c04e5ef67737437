import Borsh.RoundTrip

/-!
# The layout of a buffer

`Layout host used ls ps` says, without a reader, which bytes stand for the leaves `ls`: the bytes are pieces one after
the other, and piece by piece the host reads the leaves. A number is read from its reference encoding, a length from any
four bytes that count as many items.

`Ty.pieces` cuts the bytes of a value into these pieces. It is in step with the reader of the type (`Ty.read_pieces`).
So the reader yields a value from its layouts and from nothing else (`Ty.yields_iff`).
-/

namespace Borsh

/-- A piece of a buffer, with what the layout of the type says about it. -/
inductive Piece where
  | integral (t : IntegralType) (bytes : List UInt8)
  | floating (f : FloatType) (bytes : List UInt8)
  | length (bytes : List UInt8)
  | char (byte : UInt8)

def Piece.bytes : Piece → List UInt8
  | .integral _ bytes | .floating _ bytes | .length bytes => bytes
  | .char byte => [byte]

def ScalarType.pieces (host : Endian) : ScalarType → Reader Fault UInt8 (List Piece)
  | .integral t => (Reader.take .outOfRange t.size).bind fun bytes =>
    match ofObjectBytes host t bytes with
    | some _ => .pure [.integral t bytes]
    | none => .fail .invalidBool
  | .floating f => (Reader.take .outOfRange f.size).bind fun bytes => .pure [.floating f bytes]
  | .string => (Reader.take .outOfRange int32.size).bind fun bytes =>
    (Reader.times (.item .outOfRange) (loopCount (lengthOfBytes host bytes))).bind fun cs =>
      .pure (.length bytes :: cs.map .char)

mutual

/-- The pieces of the bytes of a value of type `t`. Only lengths are read, to know how many pieces follow. -/
def Ty.pieces (host : Endian) : Ty → Reader Fault UInt8 (List Piece)
  | .scalar s => s.pieces host
  | .cArray s n => (Reader.times (s.pieces host) n).bind fun pss => .pure pss.flatten
  | .stdArray (.scalar s) n => (Reader.times (s.pieces host) n).bind fun pss => .pure pss.flatten
  | .stdArray _ _ => .fail .stackOverflow
  | .vector t => (Reader.take .outOfRange int32.size).bind fun bytes =>
    (Reader.times (t.pieces host) (loopCount (lengthOfBytes host bytes))).bind fun pss =>
      .pure (.length bytes :: pss.flatten)
  | .struct fields => fields.pieces host

def Pack.pieces (host : Endian) : Pack → Reader Fault UInt8 (List Piece)
  | .nil => .pure []
  | .cons t ts => (t.pieces host).bind fun ps => (ts.pieces host).bind fun ps' => .pure (ps ++ ps')

end

/-! ## Pieces and leaves -/

/-- `host` reads the piece as the leaf. -/
inductive Piece.Reads (host : Endian) : Piece → Leaf → Prop
  | integral {t : IntegralType} {bytes : List UInt8} {x : t.Val} : t.reference x = bytes →
    Reads host (.integral t bytes) (.integral t x)
  | floating {f : FloatType} {bytes : List UInt8} {x : f.Val} : f.reference x = bytes →
    Reads host (.floating f bytes) (.floating f x)
  | length {bytes : List UInt8} : bytes.length = 4 →
    Reads host (.length bytes) (.length (loopCount (lengthOfBytes host bytes)))
  | char (c : UInt8) : Reads host (.char c) (.char c)

/-- The bytes `used` are the pieces `ps`, and `host` reads them as the leaves `ls`. -/
structure Layout (host : Endian) (used : List UInt8) (ls : List Leaf) (ps : List Piece) : Prop where
  bytes_eq : used = ps.flatMap Piece.bytes
  reads : List.Forall₂ (Piece.Reads host) ps ls

theorem layout_nil (host : Endian) : Layout host [] [] [] := ⟨rfl, .nil⟩

theorem layout_cons {host : Endian} {used : List UInt8} {p : Piece} {l : Leaf} {ps : List Piece} {ls : List Leaf}
    (h : p.Reads host l) (h' : Layout host used ls ps) : Layout host (p.bytes ++ used) (l :: ls) (p :: ps) where
  bytes_eq := by rw [h'.bytes_eq, List.flatMap_cons]
  reads := .cons h h'.reads

theorem Layout.append {host : Endian} {used used' : List UInt8} {ps ps' : List Piece} {ls ls' : List Leaf}
    (h : Layout host used ls ps) (h' : Layout host used' ls' ps') :
    Layout host (used ++ used') (ls ++ ls') (ps ++ ps') where
  bytes_eq := by rw [h.bytes_eq, h'.bytes_eq, List.flatMap_append]
  reads := List.rel_append h.reads h'.reads

theorem layout_chain {host : Endian} {α : Type} {leaves : α → List Leaf} {used : List UInt8} {as : List α}
    {pss : List (List Piece)} (h : Reader.Chain (fun u a ps => Layout host u (leaves a) ps) used as pss) :
    Layout host used (as.flatMap leaves) pss.flatten := by
  induction h with
  | nil => exact layout_nil host
  | cons ha _ ih => exact ha.append ih

theorem layout_chars (host : Endian) (cs : List UInt8) : Layout host cs (cs.map .char) (cs.map .char) := by
  induction cs with
  | nil => exact layout_nil host
  | cons c cs ih => exact layout_cons (.char c) ih

/-- A property of the pieces, as one of the leaves read from them. -/
theorem Layout.forall_iff {host : Endian} {used : List UInt8} {ls : List Leaf} {ps : List Piece}
    {P : Piece → Prop} {Q : Leaf → Prop} (h : Layout host used ls ps) (hPQ : ∀ p l, p.Reads host l → (P p ↔ Q l)) :
    (∀ p ∈ ps, P p) ↔ ∀ l ∈ ls, Q l := by
  obtain ⟨rfl, hreads⟩ := h
  induction hreads with
  | nil => exact ⟨fun _ l hl => (List.not_mem_nil hl).elim, fun _ p hp => (List.not_mem_nil hp).elim⟩
  | cons hp _ ih => rw [List.forall_mem_cons, List.forall_mem_cons, hPQ _ _ hp, ih]

theorem Layout.not_reentry {host : Endian} {used : List UInt8} {ls : List Leaf} {ps : List Piece}
    (h : Layout host used ls ps) : ∀ l ∈ ls, l.isReentry = false := by
  refine (h.forall_iff (P := fun _ => True) fun p l hp => ?_).mp fun _ _ => trivial
  cases hp <;> exact ⟨fun _ => rfl, fun _ => trivial⟩

/-! ## The readers and the pieces -/

/-- What a host makes of the bytes it loads is the value that the bytes encode. -/
theorem reference_of_load {host : Endian} {t : IntegralType} {bytes : List UInt8} {value : t.Val}
    (hlen : bytes.length = t.size) (h : ofObjectBytes host t bytes = some value) :
    t.reference (if host = .big then byteswap host t value else value) = bytes := by
  rw [reference_integral]
  apply objectBytes_of_ofObjectBytes hlen
  cases host with
  | little => exact h
  | big =>
    rw [← byteswap_ofObjectBytes_big t hlen, h]
    rfl

theorem reference_of_load_float (host : Endian) (f : FloatType) {bytes : List UInt8} (hlen : bytes.length = f.size) :
    f.reference (if host = .big
      then intToFloat (byteswap host (.int .signed f.width) (floatToInt (floatOfObjectBytes host f bytes)))
      else floatOfObjectBytes host f bytes) = bytes := by
  have hload : ofObjectBytes host (.int .signed f.width) bytes = some (floatToInt (floatOfObjectBytes host f bytes)) :=
    rfl
  have h := reference_of_load hlen hload
  rw [reference_integral] at h
  rw [reference_floating]
  cases host <;> exact h

/-- The count of a loop is read from the four bytes of a length. -/
theorem readCount_take (host : Endian) : Reader.InStep
    (fun used n bytes => used.length = 4 ∧ bytes = used ∧ n = loopCount (lengthOfBytes host used)) (readCount host)
    (.take .outOfRange int32.size) := by
  refine ((Reader.inStep_take _ _).map fun bytes => loopCount (lengthOfBytes host bytes)).symm.mono ?_
  rintro used n bytes ⟨_, ⟨hlen, rfl, rfl⟩, rfl⟩
  exact ⟨hlen, rfl, rfl⟩

theorem ScalarType.read_pieces (host : Endian) : ∀ s : ScalarType,
    Reader.InStep (fun used x ps => Layout host used (s.leaves x) ps) (s.read host) (s.pieces host)
  | .integral t => by
    refine (Reader.inStep_take _ _).bind fun _ _ bytes h => ?_
    obtain ⟨hlen, rfl, rfl⟩ := h
    cases hvalue : ofObjectBytes host t bytes with
    | none => exact Reader.inStep_fail _ _
    | some value =>
      exact Reader.inStep_pure (layout_cons (.integral (reference_of_load hlen hvalue)) (layout_nil host))
  | .floating f => by
    refine (Reader.inStep_take _ _).bind fun _ _ bytes h => Reader.inStep_pure ?_
    obtain ⟨hlen, rfl, rfl⟩ := h
    exact layout_cons (.floating (reference_of_load_float host f hlen)) (layout_nil host)
  | .string => by
    refine (readCount_take host).bind fun _ _ bytes h => ?_
    obtain ⟨hlen, rfl, rfl⟩ := h
    refine ((Reader.inStep_times_item _ _).map fun cs => .length bytes :: cs.map Piece.char).mono ?_
    rintro _ _ _ ⟨cs, ⟨rfl, hn, rfl⟩, rfl⟩
    have hpieces := layout_cons (Piece.Reads.length hlen) (layout_chars host cs)
    rw [← hn] at hpieces
    exact hpieces

theorem ScalarType.vector_pieces (host : Endian) (s : ScalarType) (n : Nat) : Reader.InStep
    (fun used (xs : List.Vector s.Val n) ps => Layout host used (xs.toList.flatMap s.leaves) ps)
    (Reader.vector (s.read host) n) ((Reader.times (s.pieces host) n).bind fun pss => .pure pss.flatten) := by
  refine ((Reader.inStep_vector (s.read_pieces host) n).map List.flatten).mono ?_
  rintro used xs _ ⟨pss, hchain, rfl⟩
  exact layout_chain hchain

mutual

/-- **The reader of a type is in step with its pieces**, which are what the leaves of the value are read from. -/
theorem Ty.read_pieces (host : Endian) : ∀ t : Ty, Reader.InStep
    (fun used v ps => Layout host used (t.leaves v) ps) (t.read host) (t.pieces host)
  | .scalar s => s.read_pieces host
  | .cArray s n | .stdArray (.scalar s) n => s.vector_pieces host n
  | .stdArray (.cArray _ _) _ | .stdArray (.stdArray _ _) _ | .stdArray (.vector _) _ | .stdArray (.struct _) _ =>
    Reader.inStep_fail _ _
  | .vector t => by
    refine (readCount_take host).bind fun _ _ bytes h => ?_
    obtain ⟨hlen, rfl, rfl⟩ := h
    refine ((Reader.inStep_times (t.read_pieces host) _).map fun pss => .length bytes :: pss.flatten).mono ?_
    rintro items xs _ ⟨pss, ⟨hn, hchain⟩, rfl⟩
    have hpieces := layout_cons (Piece.Reads.length hlen) (layout_chain hchain)
    rw [← hn] at hpieces
    exact hpieces
  | .struct fields => fields.read_pieces host

theorem Pack.read_pieces (host : Endian) : ∀ ts : Pack, Reader.InStep
    (fun used vs ps => Layout host used (ts.leaves vs) ps) (ts.read host) (ts.pieces host)
  | .nil => Reader.inStep_pure (layout_nil host)
  | .cons t ts => by
    refine (t.read_pieces host).bind fun u x ps h => (ts.read_pieces host).bind fun u' xs ps' h' =>
      Reader.inStep_pure ?_
    rw [List.append_nil]
    exact h.append h'

end

/-- What a reader in step with the one of the type says about a decoded value. -/
theorem deserialize_inStep {host : Endian} {t : Ty} {γ : Type} {R : List UInt8 → t.Val → γ → Prop}
    {r : Reader Fault UInt8 γ} (hstep : Reader.InStep R (t.read host) r) {n : Nat} (hn : t.depth ≤ n) {bs : List UInt8}
    {v : t.Val} {k : Nat} (h : deserialize host n bs t = .done (v, k)) :
    ∃ c, r.run bs = .ok (c, bs.drop k) ∧ R (bs.take k) v c := by
  obtain ⟨used, rest, rfl, hy, rfl⟩ := (deserialize_eq_done hn).mp h
  obtain ⟨used', c, hsplit, hc, hR⟩ := hstep.ok _ v rest (hy rest)
  obtain rfl := List.append_cancel_right hsplit
  rw [List.take_left, List.drop_left]
  exact ⟨c, hc, hR⟩

/-! ## Cutting a layout -/

theorem Layout.uncons {host : Endian} {used : List UInt8} {l : Leaf} {ls : List Leaf} {ps : List Piece}
    (h : Layout host used (l :: ls) ps) :
    ∃ p u qs, used = p.bytes ++ u ∧ ps = p :: qs ∧ p.Reads host l ∧ Layout host u ls qs := by
  obtain ⟨rfl, hreads⟩ := h
  cases hreads with
  | @cons p _ qs _ hp hqs => exact ⟨p, qs.flatMap Piece.bytes, qs, List.flatMap_cons, rfl, hp, rfl, hqs⟩

theorem Layout.split {host : Endian} {ls ls' : List Leaf} : ∀ {used : List UInt8} {ps : List Piece},
    Layout host used (ls ++ ls') ps →
      ∃ u u' qs qs', used = u ++ u' ∧ Layout host u ls qs ∧ Layout host u' ls' qs' := by
  induction ls with
  | nil => exact fun {used ps} h => ⟨[], used, [], ps, rfl, layout_nil host, h⟩
  | cons l ls ih =>
    intro used ps h
    obtain ⟨p, v, rs, rfl, rfl, hp, hrs⟩ := h.uncons
    obtain ⟨u, u', qs, qs', rfl, hu, hu'⟩ := ih hrs
    exact ⟨p.bytes ++ u, u', p :: qs, qs', (List.append_assoc _ _ _).symm, layout_cons hp hu, hu'⟩

theorem Layout.nil {host : Endian} {used : List UInt8} {ps : List Piece} (h : Layout host used [] ps) : used = [] := by
  obtain ⟨rfl, hreads⟩ := h
  cases hreads
  rfl

theorem Layout.chars {host : Endian} {cs : List UInt8} : ∀ {used : List UInt8} {ps : List Piece},
    Layout host used (cs.map .char) ps → used = cs := by
  induction cs with
  | nil => exact fun h => h.nil
  | cons c cs ih =>
    intro used ps h
    obtain ⟨p, u, qs, rfl, rfl, hp, hqs⟩ := h.uncons
    cases hp
    rw [ih hqs]
    rfl

/-! ## From the layout to the reader -/

theorem readCount_yields_take (host : Endian) {bytes : List UInt8} (h : bytes.length = 4) :
    (readCount host).Yields bytes (loopCount (lengthOfBytes host bytes)) := by
  have htake := Reader.yields_take Fault.outOfRange bytes
  rw [h] at htake
  exact Reader.Yields.map htake fun bytes => loopCount (lengthOfBytes host bytes)

theorem ScalarType.yields_of_layout {host : Endian} : ∀ {s : ScalarType} {x : s.Val} {used : List UInt8}
    {ps : List Piece}, Layout host used (s.leaves x) ps → (s.read host).Yields used x
  | .integral t, x, used, ps, h => by
    obtain ⟨p, u, qs, rfl, rfl, hp, hqs⟩ := h.uncons
    cases hp with
    | integral hx =>
      obtain rfl := hqs.nil
      rw [List.append_nil, Piece.bytes, ← hx]
      exact readIntegral_yields host t x
  | .floating f, x, used, ps, h => by
    obtain ⟨p, u, qs, rfl, rfl, hp, hqs⟩ := h.uncons
    cases hp with
    | floating hx =>
      obtain rfl := hqs.nil
      rw [List.append_nil, Piece.bytes, ← hx]
      exact readFloat_yields host f x
  | .string, cs, used, ps, h => by
    obtain ⟨p, u, qs, rfl, rfl, hp, hqs⟩ := h.uncons
    obtain rfl := hqs.chars
    have hcs : (Reader.times (.item Fault.outOfRange) u.length).Yields (u.flatMap fun c => [c]) u :=
      Reader.yields_times u fun c _ => Reader.yields_item _ c
    rw [List.flatMap_singleton'] at hcs
    generalize hlen : u.length = n at hp hcs
    cases hp with
    | length hbytes => exact Reader.Yields.bind (readCount_yields_take host hbytes) hcs

/-- Items laid out one after the other are read one after the other. -/
theorem yields_items {host : Endian} {α : Type} {leaves : α → List Leaf} {r : Reader Fault UInt8 α}
    (h : ∀ {a used ps}, Layout host used (leaves a) ps → r.Yields used a) : ∀ {as : List α} {used : List UInt8}
    {ps : List Piece}, Layout host used (as.flatMap leaves) ps → (Reader.times r as.length).Yields used as
  | [], used, ps, hl => by
    obtain rfl := hl.nil
    exact Reader.yields_pure []
  | a :: as, used, ps, hl => by
    rw [List.flatMap_cons] at hl
    obtain ⟨u, u', qs, qs', rfl, ha, has⟩ := hl.split
    exact Reader.Yields.bind (h ha) (Reader.Yields.map (yields_items h has) (a :: ·))

theorem yields_vector_items {host : Endian} {α : Type} {leaves : α → List Leaf} {r : Reader Fault UInt8 α}
    (h : ∀ {a used ps}, Layout host used (leaves a) ps → r.Yields used a) : ∀ {n : Nat} {as : List.Vector α n}
    {used : List UInt8} {ps : List Piece}, Layout host used (as.toList.flatMap leaves) ps →
      (Reader.vector r n).Yields used as
  | 0, ⟨[], rfl⟩, used, ps, hl => by
    obtain rfl := hl.nil
    exact Reader.yields_pure _
  | n + 1, ⟨a :: as, hn⟩, used, ps, hl => by
    have hcons : Layout host used (leaves a ++ as.flatMap leaves) ps := hl
    obtain ⟨u, u', qs, qs', rfl, ha, has⟩ := hcons.split
    have htail : (Reader.vector r n).Yields u' ⟨as, Nat.succ.inj hn⟩ := yields_vector_items h has
    exact Reader.Yields.bind (h ha) (Reader.Yields.map htail (List.Vector.cons a))

mutual

/-- The reader of a type returns a value from any layout of its leaves. -/
theorem Ty.yields_of_layout {host : Endian} : ∀ {t : Ty} {v : t.Val} {used : List UInt8} {ps : List Piece},
    Layout host used (t.leaves v) ps → (t.read host).Yields used v
  | .scalar s, x, used, ps, h => s.yields_of_layout h
  | .cArray s n, xs, used, ps, h | .stdArray (.scalar s) n, xs, used, ps, h =>
    yields_vector_items (fun h => s.yields_of_layout h) h
  | .stdArray (.cArray _ _) _, _, _, _, h | .stdArray (.stdArray _ _) _, _, _, _, h
  | .stdArray (.vector _) _, _, _, _, h | .stdArray (.struct _) _, _, _, _, h =>
    absurd (h.not_reentry .reentry List.mem_cons_self) (by decide)
  | .vector t, xs, used, ps, h => by
    have hcons : Layout host used (.length xs.length :: xs.flatMap t.leaves) ps := h
    obtain ⟨p, u, qs, rfl, rfl, hp, hqs⟩ := hcons.uncons
    have hxs : (Reader.times (t.read host) xs.length).Yields u xs :=
      yields_items (fun h => Ty.yields_of_layout h) hqs
    generalize xs.length = n at hp hxs
    cases hp with
    | length hbytes => exact Reader.Yields.bind (readCount_yields_take host hbytes) hxs
  | .struct fields, xs, used, ps, h => by
    have hfields : Layout host used (fields.leaves xs) ps := h
    exact Pack.yields_of_layout hfields

theorem Pack.yields_of_layout {host : Endian} : ∀ {ts : Pack} {vs : ts.Val} {used : List UInt8} {ps : List Piece},
    Layout host used (ts.leaves vs) ps → (ts.read host).Yields used vs
  | .nil, _, used, ps, h => by
    obtain rfl := Layout.nil h
    exact Reader.yields_pure ()
  | .cons t ts, (x, xs), used, ps, h => by
    have happend : Layout host used (t.leaves x ++ ts.leaves xs) ps := h
    obtain ⟨u, u', qs, qs', rfl, hx, hxs⟩ := happend.split
    have hrest : (ts.read host).Yields u' xs := Pack.yields_of_layout hxs
    exact Reader.Yields.bind (Ty.yields_of_layout hx) (Reader.Yields.map hrest fun values => (x, values))

end

/-- **A reader returns a value from its layouts and from nothing else.** -/
theorem Ty.yields_iff (host : Endian) (t : Ty) {v : t.Val} {used : List UInt8} :
    (t.read host).Yields used v ↔ ∃ ps, Layout host used (t.leaves v) ps := by
  constructor
  · intro h
    have hrun := h []
    obtain ⟨u, ps, hsplit, _, hlayout⟩ := (t.read_pieces host).ok _ v [] hrun
    rw [List.append_cancel_right hsplit]
    exact ⟨ps, hlayout⟩
  · rintro ⟨ps, h⟩
    exact Ty.yields_of_layout h

theorem Pack.yields_iff (host : Endian) (ts : Pack) {vs : ts.Val} {used : List UInt8} :
    (ts.read host).Yields used vs ↔ ∃ ps, Layout host used (ts.leaves vs) ps :=
  Ty.yields_iff host (.struct ts)

end Borsh
