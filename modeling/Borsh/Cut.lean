import Borsh.Base.Cutter
import Borsh.Layout

/-!
# What a decoder comes upon

The decoder checks neither where the buffer ends nor whether a byte is a `bool`. `Ty.cut` walks over a buffer by the
layout of the type, checks nothing either and makes no value: it reads the length prefixes and cuts the buffer into
pieces until the value or the buffer ends. Of the pieces, only a `bool` can have bytes that no value is read from
(`Piece.isValid`): loading another byte than `0` and `1` as a `bool` is undefined.

The walk tells what a decoding comes upon first, a `bool` that is none, the end of the buffer, or the end of the value
(`comes_upon_iff`). The other results about buffers that no encoder wrote are stated on its pieces.
-/

namespace Borsh

/-- The piece is read as a leaf. Nothing in the code checks it. -/
def Piece.isValid : Piece → Bool
  | .integral .bool bytes => bytes == [0] || bytes == [1]
  | _ => true

def ScalarType.cut (host : Endian) : ScalarType → Cutter UInt8 Piece
  | .integral t => .take t.size (.integral t)
  | .floating f => .take f.size (.floating f)
  | .string => .counted int32.size .length (fun bytes => loopCount (lengthOfBytes host bytes)) (.item .char)

mutual

/-- Walk over the bytes of a value of type `t`, until it or the buffer ends. -/
def Ty.cut (host : Endian) : Ty → Cutter UInt8 Piece
  | .scalar s => s.cut host
  | .cArray s n => (s.cut host).times n
  | .stdArray t n => (t.cut host).times n
  | .vector t => .counted int32.size .length (fun bytes => loopCount (lengthOfBytes host bytes)) (t.cut host)
  | .struct fields => fields.cut host

def Pack.cut (host : Endian) : Pack → Cutter UInt8 Piece
  | .nil => .done
  | .cons t ts => (t.cut host).andThen (ts.cut host)

end

/-- Every byte of the buffer that is read as a `bool` is `0` or `1`, as far as the value or the buffer goes. -/
def Ty.BoolsValid (host : Endian) (t : Ty) (buffer : List UInt8) : Prop :=
  ∀ p ∈ (t.cut host buffer).1, p.isValid = true

instance (host : Endian) (t : Ty) (buffer : List UInt8) : Decidable (t.BoolsValid host buffer) :=
  inferInstanceAs (Decidable (∀ p ∈ _, _))

/-! ## The pieces of a value -/

/-- The pieces are checked where they are read from a buffer. -/
abbrev ChecksBools (r : Reader Fault UInt8 (List Piece)) (c : Cutter UInt8 Piece) : Prop :=
  Cutter.Checks Piece.isValid .outOfRange .invalidBool r c

theorem bool_pieces_checks (host : Endian) :
    ChecksBools ((ScalarType.integral .bool).pieces host) ((ScalarType.integral .bool).cut host)
  | [] => rfl
  | b :: bs => by
    by_cases h0 : b = 0
    · subst h0
      rfl
    · by_cases h1 : b = 1
      · subst h1
        rfl
      · simp [ScalarType.pieces, ScalarType.cut, Reader.bind, Reader.take, Reader.fail, Cutter.take, Cutter.check,
          IntegralType.size, ofObjectBytes, Piece.isValid, h0, h1]

theorem ScalarType.pieces_checks (host : Endian) : ∀ s : ScalarType, ChecksBools (s.pieces host) (s.cut host)
  | .integral (.int _ _) => Cutter.checks_take _ _ fun _ => rfl
  | .integral .bool => bool_pieces_checks host
  | .floating _ => Cutter.checks_take _ _ fun _ => rfl
  | .string => by
    have hchar : ChecksBools _ (.item .char) := Cutter.checks_item Piece.char fun _ => rfl
    have hstring := hchar.counted int32.size Piece.length (fun _ => rfl) fun bytes =>
      loopCount (lengthOfBytes host bytes)
    simp only [Reader.times_map, Reader.bind_assoc, Reader.pure_bind, ← List.flatMap_def, ← List.map_eq_flatMap]
      at hstring
    exact hstring

mutual

/-- **The reader of the pieces checks what the walk finds.** -/
theorem Ty.pieces_checks (host : Endian) : ∀ t : Ty, t.Supported → ChecksBools (t.pieces host) (t.cut host)
  | .scalar s, _ => s.pieces_checks host
  | .cArray s n, _ | .stdArray (.scalar s) n, _ => (s.pieces_checks host).times n
  | .vector t, ht => (t.pieces_checks host ht).counted int32.size Piece.length (fun _ => rfl) _
  | .struct fields, ht => fields.pieces_checks host ht

theorem Pack.pieces_checks (host : Endian) : ∀ ts : Pack, ts.Supported → ChecksBools (ts.pieces host) (ts.cut host)
  | .nil, _ => Cutter.checks_done
  | .cons t ts, hts => (t.pieces_checks host hts.1).andThen (ts.pieces_checks host hts.2)

end

/-! ## The walk and the decoder -/

/-- A decoding that returns has taken the pieces that the walk finds. -/
theorem cut_of_deserialize {host : Endian} {t : Ty} (ht : t.Supported) {n : Nat} (hn : t.depth ≤ n) {bs : List UInt8}
    {v : t.Val} {k : Nat} (h : deserialize host n bs t = .done (v, k)) :
    ∃ ps, t.cut host bs = (ps, some (bs.drop k)) ∧ (∀ p ∈ ps, p.isValid = true) ∧
      Layout host (bs.take k) (t.leaves v) ps := by
  obtain ⟨ps, hps, hlayout⟩ := deserialize_inStep (t.read_pieces host) hn h
  rw [t.pieces_checks host ht bs, Cutter.check_ok_iff] at hps
  exact ⟨ps, hps.1, hps.2, hlayout⟩

theorem layout_of_cut {host : Endian} {t : Ty} (ht : t.Supported) {n : Nat} (hn : t.depth ≤ n) {bs rest : List UInt8}
    {ps : List Piece} (hcut : t.cut host bs = (ps, some rest)) {v : t.Val} {k : Nat}
    (h : deserialize host n bs t = .done (v, k)) :
    (∀ p ∈ ps, p.isValid = true) ∧ Layout host (bs.take k) (t.leaves v) ps := by
  obtain ⟨qs, hqs, hvalid, hlayout⟩ := cut_of_deserialize ht hn h
  rw [hcut] at hqs
  obtain ⟨rfl, _⟩ := Prod.mk.inj hqs
  exact ⟨hvalid, hlayout⟩

/-- When the walk comes to the end of the value and finds no other byte than `0` and `1` for a `bool`, the pieces are
decoded. -/
theorem deserialize_of_cut {host : Endian} {t : Ty} (ht : t.Supported) {n : Nat} (hn : t.depth ≤ n)
    {bs rest : List UInt8} {ps : List Piece} (hcut : t.cut host bs = (ps, some rest))
    (hps : ∀ p ∈ ps, p.isValid = true) :
    ∃ v used, bs = used ++ rest ∧ deserialize host n bs t = .done (v, used.length) ∧
      Layout host used (t.leaves v) ps := by
  have hpieces : (t.pieces host).run bs = .ok (ps, rest) := by
    rw [t.pieces_checks host ht bs, Cutter.check_ok_iff]
    exact ⟨hcut, hps⟩
  obtain ⟨used, v, hsplit, hv, hlayout⟩ := (t.read_pieces host).symm.ok bs ps rest hpieces
  obtain ⟨used', hsplit', hy⟩ := Reader.yields_of_run hv
  obtain rfl := List.append_cancel_right (hsplit.symm.trans hsplit')
  exact ⟨v, used, hsplit, (deserialize_eq_done hn).mpr ⟨used, rest, hsplit, hy, rfl⟩, hlayout⟩

/-- A decoding fails in the way in which the check of the pieces does. -/
theorem deserialize_fault_iff {host : Endian} {t : Ty} (ht : t.Supported) {n : Nat} (hn : t.depth ≤ n)
    {bs : List UInt8} {f : Fault} : deserialize host n bs t = .fault f ↔
      Cutter.check Piece.isValid .outOfRange .invalidBool (t.cut host bs) = .error f := by
  rw [deserialize_eq_fault hn, (t.read_pieces host).error_iff, t.pieces_checks host ht bs]

/-- **What a decoding comes upon first** is what the walk over the buffer finds. It returns from the bytes of a value
that the buffer does not end in and that have no other byte than `0` and `1` for a `bool`. With such a byte in the
buffer, it comes upon that first (`invalidBool`), and otherwise upon the end of the buffer (`outOfRange`). What the code
does from there on is not promised: it checks for neither. -/
theorem comes_upon_iff (host : Endian) (t : Ty) (ht : t.Supported) {n : Nat} (hn : t.depth ≤ n) (buffer : List UInt8) :
    (∀ k, (∃ v, deserialize host n buffer t = .done (v, k)) ↔
      t.BoolsValid host buffer ∧
        ∃ used rest, buffer = used ++ rest ∧ used.length = k ∧ (t.cut host buffer).2 = some rest) ∧
    (deserialize host n buffer t = .fault .outOfRange ↔
      t.BoolsValid host buffer ∧ (t.cut host buffer).2 = none) ∧
    (deserialize host n buffer t = .fault .invalidBool ↔ ¬ t.BoolsValid host buffer) := by
  refine ⟨fun k => ⟨?_, ?_⟩, ?_, ?_⟩
  · intro h
    obtain ⟨v, h⟩ := h
    obtain ⟨ps, hcut, hps, _⟩ := cut_of_deserialize ht hn h
    obtain ⟨used, rest, rfl, _, rfl⟩ := (deserialize_eq_done hn).mp h
    rw [List.drop_left] at hcut
    rw [Ty.BoolsValid, hcut]
    exact ⟨hps, used, rest, rfl, rfl, rfl⟩
  · intro h
    obtain ⟨hvalid, used, rest, hsplit, hlen, hrest⟩ := h
    obtain ⟨v, used', hsplit', hdone, _⟩ := deserialize_of_cut ht hn (Prod.ext rfl hrest) hvalid
    obtain rfl := List.append_cancel_right (hsplit.symm.trans hsplit')
    rw [hlen] at hdone
    exact ⟨v, hdone⟩
  · rw [deserialize_fault_iff ht hn, Cutter.check_short_iff (by decide)]
    exact and_comm
  · rw [deserialize_fault_iff ht hn, Cutter.check_refused_iff (by decide)]
    rfl

/-- A struct of two `bool`s and a `uint16_t`. -/
abbrev flagsAndNumber : Ty := .struct (.cons (.stdArray (.scalar (.integral .bool)) 2)
  (.cons (.scalar (.integral (.int .unsigned .w16))) .nil))

/-- A value and one byte more, a buffer that ends in the number, and one with a `bool` of `2` that ends there too. -/
theorem comes_upon_iff_flags :
    (∃ v, deserialize .big 3 [1, 0, 7, 0, 9] flagsAndNumber = .done (v, 4)) ∧
    deserialize .big 3 [1, 0, 7] flagsAndNumber = .fault .outOfRange ∧
    deserialize .big 3 [1, 2, 7] flagsAndNumber = .fault .invalidBool := by
  have hflags : flagsAndNumber.Supported := ⟨rfl, trivial, trivial⟩
  have hdepth : flagsAndNumber.depth ≤ 3 := by decide
  have hrule := comes_upon_iff .big flagsAndNumber hflags hdepth
  refine ⟨((hrule [1, 0, 7, 0, 9]).1 4).mpr ⟨by decide, [1, 0, 7, 0], [9], rfl, rfl, rfl⟩, ?_, ?_⟩
  · exact (hrule [1, 0, 7]).2.1.mpr (by decide)
  · exact (hrule [1, 2, 7]).2.2.mpr (by decide)

end Borsh
