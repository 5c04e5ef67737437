import Borsh.Cut

/-!
# Canonical encodings

`Ty.prefixes` walks over the bytes of a value and returns the length prefixes it meets. They are the lengths among the
pieces of the layout (`Ty.pieces_prefixes`), and so tell the lengths of the strings and vectors read (`Audit`,
`Ty.read_prefixes`). On a little-endian host the bytes read are the reference encoding of the value exactly when no
prefix has its top bit set: the decoder takes such a prefix for an empty string or vector, whose encoding has four zero
bytes. A `bool` that is neither `0` nor `1` is not refused either, and no value is encoded as it. So encoding undoes
decoding from the buffers without these two kinds of pieces and from no others (`canonical_iff`).
-/

namespace Borsh

/-! ## The prefixes of a layout -/

def readPrefix (host : Endian) : Reader Fault UInt8 int32.Val :=
  (Reader.take .outOfRange int32.size).bind fun bytes => .pure (lengthOfBytes host bytes)

def ScalarType.prefixes (host : Endian) : ScalarType → Reader Fault UInt8 (List int32.Val)
  | .integral t => (readIntegral host t).bind fun _ => .pure []
  | .floating f => (readFloat host f).bind fun _ => .pure []
  | .string => (readPrefix host).bind fun length =>
    (Reader.times (.item .outOfRange) (loopCount length)).bind fun _ => .pure [length]

mutual

/-- The length prefixes in the bytes of a value of type `t`, in their order. -/
def Ty.prefixes (host : Endian) : Ty → Reader Fault UInt8 (List int32.Val)
  | .scalar s => s.prefixes host
  | .cArray s n => (Reader.times (s.prefixes host) n).bind fun pss => .pure pss.flatten
  | .stdArray (.scalar s) n => (Reader.times (s.prefixes host) n).bind fun pss => .pure pss.flatten
  | .stdArray _ _ => .fail .stackOverflow
  | .vector t => (readPrefix host).bind fun length =>
    (Reader.times (t.prefixes host) (loopCount length)).bind fun pss => .pure (length :: pss.flatten)
  | .struct fields => fields.prefixes host

def Pack.prefixes (host : Endian) : Pack → Reader Fault UInt8 (List int32.Val)
  | .nil => .pure []
  | .cons t ts => (t.prefixes host).bind fun ps => (ts.prefixes host).bind fun ps' => .pure (ps ++ ps')

end

/-- The length prefix that a piece is. -/
def Piece.length? (host : Endian) : Piece → Option int32.Val
  | .length bytes => some (lengthOfBytes host bytes)
  | _ => none

/-! ## What the bytes say about the value -/

/-- What the bytes `used` of a value with the reference encoding `enc` and the counts `counts` say, where the prefixes
in them are `ps`. -/
structure Audit (host : Endian) (used enc : List UInt8) (counts : List Nat) (ps : List int32.Val) : Prop where
  counts_eq : counts = ps.map loopCount
  length_eq : host = .little → used.length = enc.length
  canonical : host = .little → used = enc → ∀ p ∈ ps, p.toNat ≤ int32Max
  faithful : host = .little → (∀ p ∈ ps, p.toNat ≤ int32Max) → used = enc

theorem audit_leaf {host : Endian} {used enc : List UInt8} (h : host = .little → used = enc) :
    Audit host used enc [] [] where
  counts_eq := rfl
  length_eq hl := congrArg List.length (h hl)
  canonical _ _ _ hp := (List.not_mem_nil hp).elim
  faithful hl _ := h hl

theorem Audit.append {host : Endian} {used used' enc enc' : List UInt8} {counts counts' : List Nat}
    {ps ps' : List int32.Val} (h : Audit host used enc counts ps) (h' : Audit host used' enc' counts' ps') :
    Audit host (used ++ used') (enc ++ enc') (counts ++ counts') (ps ++ ps') where
  counts_eq := by rw [h.counts_eq, h'.counts_eq, List.map_append]
  length_eq hl := by rw [List.length_append, List.length_append, h.length_eq hl, h'.length_eq hl]
  canonical hl heq p hp := by
    obtain ⟨hu, hu'⟩ := List.append_inj heq (h.length_eq hl)
    rcases List.mem_append.mp hp with hp | hp
    · exact h.canonical hl hu p hp
    · exact h'.canonical hl hu' p hp
  faithful hl hps := by
    rw [h.faithful hl fun p hp => hps p (List.mem_append_left _ hp),
      h'.faithful hl fun p hp => hps p (List.mem_append_right _ hp)]

/-- A prefix with the top bit set stands for the count zero, but its bytes do not. -/
theorem audit_length (host : Endian) {used : List UInt8} (h : used.length = 4) :
    Audit host used (u32 (loopCount (lengthOfBytes host used))) [loopCount (lengthOfBytes host used)]
      [lengthOfBytes host used] where
  counts_eq := rfl
  length_eq _ := by rw [h, length_u32]
  canonical := by
    rintro rfl heq p hp
    obtain rfl := List.mem_singleton.mp hp
    have hle := loopCount_le (lengthOfBytes .little used)
    rw [toNat_lengthOfBytes .little h, Endian.order, heq, value_u32 hle]
    exact hle
  faithful := by
    rintro rfl hps
    have hle := hps _ List.mem_cons_self
    rw [loopCount_eq, if_pos hle, toNat_lengthOfBytes .little h, Endian.order, u32_value h]

theorem Piece.Reads.audit {host : Endian} {p : Piece} {l : Leaf} (h : p.Reads host l) :
    Audit host p.bytes l.reference ([l].filterMap Leaf.count?) ([p].filterMap (Piece.length? host)) := by
  cases h with
  | integral h => exact audit_leaf fun _ => h.symm
  | floating h => exact audit_leaf fun _ => h.symm
  | length h => exact audit_length host h
  | char c => exact audit_leaf fun _ => rfl

theorem Layout.audit {host : Endian} {used : List UInt8} {ls : List Leaf} {ps : List Piece}
    (h : Layout host used ls ps) :
    Audit host used (ls.flatMap Leaf.reference) (ls.filterMap Leaf.count?) (ps.filterMap (Piece.length? host)) := by
  obtain ⟨rfl, hreads⟩ := h
  induction hreads with
  | nil => exact audit_leaf fun _ => rfl
  | @cons p l ps ls hp _ ih =>
    have haudit := hp.audit.append ih
    rwa [← List.filterMap_append, ← List.filterMap_append] at haudit

/-! ## The pieces and the prefixes -/

theorem prefixes_chain {host : Endian} {used : List UInt8} {pss : List (List Piece)} {qss : List (List int32.Val)}
    (h : Reader.Chain (fun _ ps qs => qs = ps.filterMap (Piece.length? host)) used pss qss) :
    qss.flatten = pss.flatten.filterMap (Piece.length? host) := by
  induction h with
  | nil => rfl
  | cons hps _ ih => rw [List.flatten_cons, List.flatten_cons, List.filterMap_append, hps, ih]

theorem take_readPrefix (host : Endian) : Reader.InStep (fun _ bytes p => p = lengthOfBytes host bytes)
    (.take .outOfRange int32.size) (readPrefix host) := by
  refine ((Reader.inStep_take _ _).map (lengthOfBytes host)).mono ?_
  rintro used bytes _ ⟨_, ⟨_, rfl, rfl⟩, rfl⟩
  rfl

theorem chars_length? (host : Endian) (cs : List UInt8) : (cs.map Piece.char).filterMap (Piece.length? host) = [] := by
  rw [List.filterMap_eq_nil_iff]
  intro p hp
  obtain ⟨c, _, rfl⟩ := List.mem_map.mp hp
  rfl

/-- Pieces that are read as leaves without a length have no prefix among them. -/
theorem numeric_prefixes {host : Endian} {α : Type} {leaves : α → List Leaf}
    (hleaves : ∀ x, (leaves x).filterMap Leaf.count? = []) {r : Reader Fault UInt8 α}
    {r' : Reader Fault UInt8 (List Piece)} (h : Reader.InStep (fun used x ps => Layout host used (leaves x) ps) r r') :
    Reader.InStep (fun _ ps qs => qs = ps.filterMap (Piece.length? host)) r' (r.bind fun _ => .pure []) := by
  refine (h.symm.map fun _ => []).mono ?_
  rintro used ps _ ⟨x, hlayout, rfl⟩
  have hcounts := hlayout.audit.counts_eq
  rw [hleaves x] at hcounts
  exact (List.map_eq_nil_iff.mp hcounts.symm).symm

theorem ScalarType.pieces_prefixes (host : Endian) : ∀ s : ScalarType,
    Reader.InStep (fun _ ps qs => qs = ps.filterMap (Piece.length? host)) (s.pieces host) (s.prefixes host)
  | .integral t => numeric_prefixes (fun _ => rfl) ((ScalarType.integral t).read_pieces host)
  | .floating f => numeric_prefixes (fun _ => rfl) ((ScalarType.floating f).read_pieces host)
  | .string => by
    refine (take_readPrefix host).bind fun _ bytes length h => ?_
    subst h
    refine (Reader.inStep_times_item _ _).bind fun _ cs _ _ => Reader.inStep_pure ?_
    rw [List.filterMap_cons, chars_length?]
    rfl

theorem ScalarType.times_prefixes (host : Endian) (s : ScalarType) (n : Nat) :
    Reader.InStep (fun _ ps qs => qs = ps.filterMap (Piece.length? host))
      ((Reader.times (s.pieces host) n).bind fun pss => .pure pss.flatten)
      ((Reader.times (s.prefixes host) n).bind fun qss => .pure qss.flatten) :=
  (Reader.inStep_times (s.pieces_prefixes host) n).bind fun _ _ _ h => Reader.inStep_pure (prefixes_chain h.2)

mutual

theorem Ty.pieces_prefixes (host : Endian) : ∀ t : Ty,
    Reader.InStep (fun _ ps qs => qs = ps.filterMap (Piece.length? host)) (t.pieces host) (t.prefixes host)
  | .scalar s => s.pieces_prefixes host
  | .cArray s n | .stdArray (.scalar s) n => s.times_prefixes host n
  | .stdArray (.cArray _ _) _ | .stdArray (.stdArray _ _) _ | .stdArray (.vector _) _ | .stdArray (.struct _) _ =>
    Reader.inStep_fail _ _
  | .vector t => by
    refine (take_readPrefix host).bind fun _ bytes length h => ?_
    subst h
    refine (Reader.inStep_times (t.pieces_prefixes host) _).bind fun _ pss qss h => Reader.inStep_pure ?_
    rw [List.filterMap_cons, prefixes_chain h.2]
    rfl
  | .struct fields => fields.pieces_prefixes host

theorem Pack.pieces_prefixes (host : Endian) : ∀ ts : Pack,
    Reader.InStep (fun _ ps qs => qs = ps.filterMap (Piece.length? host)) (ts.pieces host) (ts.prefixes host)
  | .nil => Reader.inStep_pure rfl
  | .cons t ts => by
    refine (t.pieces_prefixes host).bind fun _ ps qs h => (ts.pieces_prefixes host).bind fun _ ps' qs' h' =>
      Reader.inStep_pure ?_
    rw [h, h', List.filterMap_append]

end

/-- **The reader of a type is in step with its prefixes**, which tell the counts of the value and, on a little-endian
host, whether the bytes read are its reference encoding. -/
theorem Ty.read_prefixes (host : Endian) (t : Ty) : Reader.InStep
    (fun used v ps => Audit host used (t.reference v) (t.counts v) ps) (t.read host) (t.prefixes host) := by
  refine ((t.read_pieces host).trans (t.pieces_prefixes host)).mono ?_
  rintro used v _ ⟨ps, hlayout, rfl⟩
  rw [← t.leaves_reference v hlayout.not_reentry]
  exact hlayout.audit

/-- What decoding a buffer says about the value. -/
theorem deserialize_audit {host : Endian} {t : Ty} {n : Nat} (hn : t.depth ≤ n) {bs : List UInt8} {v : t.Val} {k : Nat}
    (h : deserialize host n bs t = .done (v, k)) : ∃ ps, (t.prefixes host).run bs = .ok (ps, bs.drop k) ∧
      Audit host (bs.take k) (t.reference v) (t.counts v) ps :=
  deserialize_inStep (t.read_prefixes host) hn h

/-- A prefix without its top bit is read as the unsigned number it is. -/
theorem map_loopCount {ps : List int32.Val} (h : ∀ p ∈ ps, p.toNat ≤ int32Max) :
    ps.map loopCount = ps.map BitVec.toNat := by
  apply List.map_congr_left
  intro p hp
  rw [loopCount_eq, if_pos (h p hp)]

/-- The pieces that are read as what they are written from: a `bool` that is `0` or `1`, and a length without its top
bit. -/
def Piece.isCanonical : Piece → Bool
  | .length bytes => decide ((lengthOfBytes .little bytes).toNat ≤ int32Max)
  | p => p.isValid

/-- The two ways in which a piece is not canonical. -/
theorem canonical_pieces_iff {ps : List Piece} : (∀ p ∈ ps, p.isCanonical = true) ↔
    (∀ p ∈ ps, p.isValid = true) ∧ ∀ l ∈ ps.filterMap (Piece.length? .little), l.toNat ≤ int32Max := by
  constructor
  · intro h
    refine ⟨fun p hp => ?_, fun l hl => ?_⟩
    · cases p with
      | length bytes => rfl
      | _ => exact h _ hp
    · obtain ⟨p, hp, hl⟩ := List.mem_filterMap.mp hl
      cases p with
      | length bytes =>
        cases hl
        exact of_decide_eq_true (h _ hp)
      | _ => cases hl
  · rintro ⟨hvalid, hlengths⟩ p hp
    cases p with
    | length bytes => exact decide_eq_true (hlengths _ (List.mem_filterMap.mpr ⟨_, hp, rfl⟩))
    | _ => exact hvalid _ hp

/-- The buffer is decoded, the value is encoded as the bytes it was decoded from, and its strings and vectors have the
lengths that the prefixes among the pieces say. -/
def Reproduced (t : Ty) (n : Nat) (bs : List UInt8) (ps : List Piece) : Prop :=
  ∃ v k, deserialize .little n bs t = .done (v, k) ∧ serialize .little n t v = .done (bs.take k) ∧
    t.counts v = (ps.filterMap (Piece.length? .little)).map BitVec.toNat

/-- A value decoded from canonical pieces is encoded as the bytes it was decoded from. -/
theorem serialize_of_canonical {t : Ty} (ht : t.Supported) (hf : t.FloatFree) {n : Nat} (hn : t.depth ≤ n)
    {bs rest : List UInt8} {ps : List Piece} (hcut : t.cut .little bs = (ps, some rest))
    (hps : ∀ p ∈ ps, p.isCanonical = true) {v : t.Val} {k : Nat} (h : deserialize .little n bs t = .done (v, k)) :
    serialize .little n t v = .done (bs.take k) := by
  obtain ⟨_, hlayout⟩ := layout_of_cut ht hn hcut h
  have hfaithful := hlayout.audit.faithful rfl (canonical_pieces_iff.mp hps).2
  rw [t.leaves_reference v hlayout.not_reentry] at hfaithful
  rw [serialize_reference ht hn (hf.nanFree v), hfaithful]

/-- **Encoding undoes decoding exactly when the pieces of the bytes are canonical** (on a little-endian host): when
every `bool` is `0` or `1` and no length prefix has its top bit set. Of such buffers, no two that are consumed in full
are decoded to one value. -/
theorem canonical_iff (t : Ty) (ht : t.Supported) (hf : t.FloatFree) {n : Nat} (hn : t.depth ≤ n)
    {bs rest : List UInt8} {ps : List Piece} (hcut : t.cut .little bs = (ps, some rest)) :
    (Reproduced t n bs ps ↔ ∀ p ∈ ps, p.isCanonical = true) ∧
    (rest = [] → (∀ p ∈ ps, p.isCanonical = true) →
      ∀ bs' ps' v, t.cut .little bs' = (ps', some []) → (∀ p ∈ ps', p.isCanonical = true) →
        deserialize .little n bs t = .done (v, bs.length) → deserialize .little n bs' t = .done (v, bs'.length) →
          bs' = bs) := by
  refine ⟨⟨?_, fun hps => ?_⟩, ?_⟩
  · rintro ⟨v, k, hdone, hserialize, _⟩
    obtain ⟨hvalid, hlayout⟩ := layout_of_cut ht hn hcut hdone
    rw [serialize_reference ht hn (hf.nanFree v), ← t.leaves_reference v hlayout.not_reentry] at hserialize
    injection hserialize with hencoding
    exact canonical_pieces_iff.mpr ⟨hvalid, hlayout.audit.canonical rfl hencoding.symm⟩
  · have hcanonical := canonical_pieces_iff.mp hps
    obtain ⟨v, used, rfl, hdone, hlayout⟩ := deserialize_of_cut ht hn hcut hcanonical.1
    refine ⟨v, used.length, hdone, serialize_of_canonical ht hf hn hcut hps hdone, ?_⟩
    rw [← map_loopCount hcanonical.2]
    exact hlayout.audit.counts_eq
  · rintro rfl hps bs' ps' v hcut' hps' hdone hdone'
    have hbs := serialize_of_canonical ht hf hn hcut hps hdone
    have hbs' := serialize_of_canonical ht hf hn hcut' hps' hdone'
    rw [List.take_length] at hbs hbs'
    have hsame := hbs'.symm.trans hbs
    injection hsame

/-- A struct of a `bool` and a vector of `uint16_t`. -/
abbrev flagAndNumbers : Ty := .struct (.cons (.scalar (.integral .bool))
  (.cons (.vector (.scalar (.integral (.int .unsigned .w16)))) .nil))

/-- A `bool` and one number are reproduced, with a byte behind them. A `bool` of `2` in front of them is not. -/
theorem canonical_iff_flag :
    Reproduced flagAndNumbers 3 [1, 1, 0, 0, 0, 7, 0, 9]
      [.integral .bool [1], .length [1, 0, 0, 0], .integral (.int .unsigned .w16) [7, 0]] ∧
    ¬ Reproduced flagAndNumbers 3 [2, 1, 0, 0, 0, 7, 0, 9]
      [.integral .bool [2], .length [1, 0, 0, 0], .integral (.int .unsigned .w16) [7, 0]] := by
  have hsupported : flagAndNumbers.Supported := ⟨trivial, trivial, trivial⟩
  have hfloats : flagAndNumbers.FloatFree := by decide
  have hdepth : flagAndNumbers.depth ≤ 3 := by decide
  have hcut : flagAndNumbers.cut .little [1, 1, 0, 0, 0, 7, 0, 9] = ([.integral .bool [1], .length [1, 0, 0, 0],
    .integral (.int .unsigned .w16) [7, 0]], some [9]) := rfl
  have hcut' : flagAndNumbers.cut .little [2, 1, 0, 0, 0, 7, 0, 9] = ([.integral .bool [2], .length [1, 0, 0, 0],
    .integral (.int .unsigned .w16) [7, 0]], some [9]) := rfl
  constructor
  · exact (canonical_iff flagAndNumbers hsupported hfloats hdepth hcut).1.mpr (by decide)
  · intro h
    exact absurd ((canonical_iff flagAndNumbers hsupported hfloats hdepth hcut').1.mp h) (by decide)

/-- Four bytes `0xFF` are read as the empty vector, which is written as four zero bytes. -/
theorem negative_prefix_not_canonical :
    deserialize .little 2 [0xFF, 0xFF, 0xFF, 0xFF] (.vector (.scalar (.integral (.int .unsigned .w8)))) =
      .done ([], 4) ∧
    serialize .little 2 (.vector (.scalar (.integral (.int .unsigned .w8)))) [] = .done [0, 0, 0, 0] ∧
    [0, 0, 0, 0] ≠ ([0xFF, 0xFF, 0xFF, 0xFF] : List UInt8).take 4 :=
  ⟨rfl, rfl, by decide⟩

end Borsh
