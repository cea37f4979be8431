import Mathlib.Data.List.Forall2
import ParenTree.Text.Utf8

-- Bytes that encode characters are decoded to these characters, so a file with a text in it never has a fault; and bytes that
-- encode none have one.

namespace ParenTree.Utf8

def encode (cs : List Char) : List UInt8 :=
  cs.flatMap String.utf8EncodeChar

-- Bytes that are the encoding of a text.
def IsText (bs : List UInt8) : Prop :=
  ∃ cs, bs = encode cs

-- A byte of a range.
def Range.Admits (range : Range) (n : Nat) : Prop :=
  range.1 ≤ n ∧ n ≤ range.2 ∧ n < 256

section

variable {ranges : List Range} {ns : List Nat}

theorem fitting_eq (h : List.Forall₂ Range.Admits ranges ns) (rest : List UInt8) :
    fitting ranges (ns.map UInt8.ofNat ++ rest) = ns.map UInt8.ofNat := by
  induction h
  case nil => cases rest <;> rfl
  case cons range n ranges ns hn _ hi =>
    obtain ⟨hl, hh, hn⟩ := hn
    have ht : (UInt8.ofNat n).toNat = n := UInt8.toNat_ofNat_of_lt' hn
    simp [fitting, ht, hl, hh, hi]

-- A first byte, and as many bytes behind it as it asks for.
theorem first_eq {n bits : Nat} (hn : n < 256) (hb : lead? n = some (bits, ranges)) (h : List.Forall₂ Range.Admits ranges ns)
    (rest : List UInt8) :
    first (.ofNat n) (ns.map UInt8.ofNat ++ rest) =
      .ok (.ofNat (ns.foldl (fun m n => 64 * m + n % 64) bits), (ns.map UInt8.ofNat).length) := by
  have ht : (UInt8.ofNat n).toNat = n := UInt8.toNat_ofNat_of_lt' hn
  have hl : (ns.map UInt8.ofNat).length = ranges.length := by rw [List.length_map, h.length_eq]
  have hm (n : Nat) : n % 256 % 64 = n % 64 := Nat.mod_mod_of_dvd n (by decide)
  simp [first, ht, hb, fitting_eq h rest, hl, List.foldl_map, hm]

end

section

variable {v : Nat}

theorem second_of_three (hl : 0x800 ≤ v) (hh : v ≤ 0xFFFF) (hv : v.isValidChar) :
    (second (v / 4096 % 16 + 224)).Admits (v / 64 % 64 + 128) := by
  simp only [second, anyTail]
  repeat' split
  all_goals
    dsimp only [Nat.isValidChar, Range.Admits] at hv ⊢
    omega

theorem second_of_four (hl : 0x10000 ≤ v) (hv : v.isValidChar) :
    (second (v / 262144 % 8 + 240)).Admits (v / 4096 % 64 + 128) := by
  simp only [second, anyTail]
  repeat' split
  all_goals
    dsimp only [Nat.isValidChar, Range.Admits] at hv ⊢
    omega

theorem anyTail_admits (v : Nat) : anyTail.Admits (v % 64 + 128) := by
  dsimp only [anyTail, Range.Admits]
  omega

end

-- One case for each length of an encoding.
theorem first_encodeChar (c : Char) :
    ∃ b tail, String.utf8EncodeChar c = b :: tail ∧ ∀ rest, first b (tail ++ rest) = .ok (c, tail.length) := by
  have hv : c.val.toNat.isValidChar := c.valid
  have back {n : Nat} (h : n = c.val.toNat) : Char.ofNat n = c := h ▸ Char.ofNat_toNat c
  rw [String.utf8EncodeChar]
  generalize c.val.toNat = v at hv back ⊢
  split
  case isTrue =>
    have hb : lead? v = some (v, []) := if_pos (by omega)
    refine ⟨_, [].map UInt8.ofNat, rfl, fun rest => ?_⟩
    rw [first_eq (by omega) hb .nil, back List.foldl_nil]
  case isFalse =>
    split
    case isTrue =>
      have hb : lead? (v / 64 % 32 + 192) = some (v / 64 % 32, [anyTail]) := by
        rw [lead?, if_neg (by omega), if_neg (by omega), if_pos (by omega), Nat.add_sub_cancel]
      refine ⟨_, [v % 64 + 128].map UInt8.ofNat, rfl, fun rest => ?_⟩
      rw [first_eq (by omega) hb (.cons (anyTail_admits v) .nil), back (by simp only [List.foldl_cons, List.foldl_nil]; omega)]
    case isFalse =>
      split
      case isTrue =>
        have hb : lead? (v / 4096 % 16 + 224) = some (v / 4096 % 16, [second (v / 4096 % 16 + 224), anyTail]) := by
          rw [lead?, if_neg (by omega), if_neg (by omega), if_neg (by omega), if_pos (by omega), Nat.add_sub_cancel]
        have hs := second_of_three (by omega) (by omega) hv
        refine ⟨_, [v / 64 % 64 + 128, v % 64 + 128].map UInt8.ofNat, rfl, fun rest => ?_⟩
        rw [first_eq (by omega) hb (.cons hs (.cons (anyTail_admits v) .nil)),
          back (by simp only [List.foldl_cons, List.foldl_nil]; omega)]
      case isFalse =>
        have hb : lead? (v / 262144 % 8 + 240) = some (v / 262144 % 8, [second (v / 262144 % 8 + 240), anyTail, anyTail]) := by
          dsimp only [Nat.isValidChar] at hv
          rw [lead?, if_neg (by omega), if_neg (by omega), if_neg (by omega), if_neg (by omega), if_pos (by omega),
            Nat.add_sub_cancel]
        have hs := second_of_four (by omega) hv
        refine ⟨_, [v / 4096 % 64 + 128, v / 64 % 64 + 128, v % 64 + 128].map UInt8.ofNat, rfl, fun rest => ?_⟩
        rw [first_eq (by omega) hb (.cons hs (.cons (anyTail_admits (v / 64)) (.cons (anyTail_admits v) .nil)))]
        dsimp only [Nat.isValidChar] at hv
        rw [back (by simp only [List.foldl_cons, List.foldl_nil]; omega)]

theorem decodeFrom_encode (start : Nat) (found cs : List Char) :
    decodeFrom start found (encode cs) = .ok (found.reverse ++ cs) := by
  induction cs generalizing start found
  case nil => rw [encode, List.flatMap_nil, decodeFrom, List.append_nil]
  case cons c cs hi =>
    obtain ⟨b, tail, hc, hf⟩ := first_encodeChar c
    rw [encode, List.flatMap_cons, hc, List.cons_append, decodeFrom, ← encode, hf]
    dsimp only
    rw [List.drop_left, hi, List.reverse_cons, List.append_assoc, List.singleton_append]

theorem decode_encode (cs : List Char) : decode (encode cs) = .ok cs :=
  decodeFrom_encode 0 [] cs

theorem encode_inj {cs ds : List Char} (h : encode cs = encode ds) : cs = ds := by
  have hd := decode_encode cs
  rw [h, decode_encode] at hd
  exact (Except.ok.inj hd).symm

-- Where as many bytes fit as there are ranges, each is in its range.
theorem admits_fitting {ranges : List Range} {bs : List UInt8} (h : (fitting ranges bs).length = ranges.length) :
    List.Forall₂ (fun range b => range.Admits b.toNat) ranges (fitting ranges bs) ∧
      bs.take (fitting ranges bs).length = fitting ranges bs := by
  fun_induction fitting ranges bs
  case case1 low high ranges b bs hb hi =>
    obtain ⟨ha, hp⟩ := hi (Nat.succ.inj h)
    simp only [Bool.and_eq_true, decide_eq_true_eq] at hb
    exact ⟨.cons ⟨hb.left, hb.right, b.toNat_lt⟩ ha, congrArg (b :: ·) hp⟩
  case case2 => cases h
  case case3 ranges bs hn =>
    cases ranges
    case nil => exact ⟨.nil, rfl⟩
    case cons => cases h

theorem encodeChar_ofNat {v : Nat} (hv : v.isValidChar) :
    String.utf8EncodeChar (.ofNat v) =
      if v ≤ 127 then [v].map UInt8.ofNat
      else if v ≤ 2047 then [v / 64 % 32 + 192, v % 64 + 128].map UInt8.ofNat
      else if v ≤ 65535 then [v / 4096 % 16 + 224, v / 64 % 64 + 128, v % 64 + 128].map UInt8.ofNat
      else [v / 262144 % 8 + 240, v / 4096 % 64 + 128, v / 64 % 64 + 128, v % 64 + 128].map UInt8.ofNat := by
  have hn : (Char.ofNat v).val.toNat = v := by
    rw [Char.ofNat, dif_pos hv]
    rfl
  rw [String.utf8EncodeChar, hn]
  rfl

theorem map_ofNat_eq {ns : List Nat} {bs : List UInt8} (h : ns = bs.map UInt8.toNat) : ns.map UInt8.ofNat = bs := by
  rw [h, List.map_map]
  exact (List.map_congr_left fun b _ => UInt8.ofNat_toNat).trans (List.map_id bs)

theorem bounds_of_second {b t : Nat} (h : (second b).Admits t) :
    0x80 ≤ t ∧ t ≤ 0xBF ∧ (b = 0xE0 → 0xA0 ≤ t) ∧ (b = 0xED → t ≤ 0x9F) ∧ (b = 0xF0 → 0x90 ≤ t) ∧ (b = 0xF4 → t ≤ 0x8F) := by
  simp only [second, anyTail] at h
  repeat' split at h
  all_goals
    dsimp only [Range.Admits] at h
    omega

theorem bounds_of_anyTail {t : Nat} (h : anyTail.Admits t) : 0x80 ≤ t ∧ t ≤ 0xBF :=
  ⟨h.left, h.right.left⟩

-- The bytes that were read are those that the character is encoded with. Again there is one case for each length.
theorem encodeChar_of_admits {b : UInt8} {tail : List UInt8} {bits : Nat} {ranges : List Range}
    (hb : lead? b.toNat = some (bits, ranges)) (ht : List.Forall₂ (fun range b => range.Admits b.toNat) ranges tail) :
    String.utf8EncodeChar (.ofNat (tail.foldl (fun n b => 64 * n + b.toNat % 64) bits)) = b :: tail := by
  rw [lead?] at hb
  repeat' split at hb
  all_goals simp only [Option.some.injEq, Prod.mk.injEq, reduceCtorEq] at hb
  all_goals obtain ⟨rfl, rfl⟩ := hb
  case isTrue =>
    cases ht
    rw [List.foldl_nil, encodeChar_ofNat (.inl (by omega)), if_pos (by omega)]
    exact map_ofNat_eq rfl
  case isFalse.isFalse.isTrue =>
    rcases ht with _ | ⟨ht, _ | _⟩
    have ht := bounds_of_anyTail ht
    simp only [List.foldl_cons, List.foldl_nil]
    rw [encodeChar_ofNat (.inl (by omega)), if_neg (by omega), if_pos (by omega)]
    refine map_ofNat_eq ?_
    simp only [List.map_cons, List.map_nil, List.cons.injEq, and_true]
    omega
  case isFalse.isFalse.isFalse.isTrue =>
    rcases ht with _ | ⟨hs, _ | ⟨ht, _ | _⟩⟩
    have hs := bounds_of_second hs
    have ht := bounds_of_anyTail ht
    simp only [List.foldl_cons, List.foldl_nil]
    rw [encodeChar_ofNat (by dsimp only [Nat.isValidChar]; omega), if_neg (by omega), if_neg (by omega), if_pos (by omega)]
    refine map_ofNat_eq ?_
    simp only [List.map_cons, List.map_nil, List.cons.injEq, and_true]
    omega
  case isFalse.isFalse.isFalse.isFalse.isTrue =>
    rcases ht with _ | ⟨hs, _ | ⟨ht, _ | ⟨hu, _ | _⟩⟩⟩
    have hs := bounds_of_second hs
    have ht := bounds_of_anyTail ht
    have hu := bounds_of_anyTail hu
    simp only [List.foldl_cons, List.foldl_nil]
    rw [encodeChar_ofNat (by dsimp only [Nat.isValidChar]; omega), if_neg (by omega), if_neg (by omega), if_neg (by omega)]
    refine map_ofNat_eq ?_
    simp only [List.map_cons, List.map_nil, List.cons.injEq, and_true]
    omega

theorem encodeChar_of_first {b : UInt8} {bs : List UInt8} {c : Char} {n : Nat} (h : first b bs = .ok (c, n)) :
    String.utf8EncodeChar c = b :: bs.take n := by
  rw [first] at h
  split at h
  case h_1 => cases h
  case h_2 bits ranges hb =>
    dsimp only at h
    split at h
    case isFalse => split at h <;> cases h
    case isTrue hl =>
      obtain ⟨ha, hp⟩ := admits_fitting hl
      cases h
      rw [encodeChar_of_admits hb ha, hp]

theorem encode_of_decodeFrom {start : Nat} {found cs : List Char} {bs : List UInt8} (h : decodeFrom start found bs = .ok cs) :
    ∃ ds, cs = found.reverse ++ ds ∧ bs = encode ds := by
  fun_induction decodeFrom start found bs
  case case1 =>
    cases h
    exact ⟨[], (List.append_nil _).symm, rfl⟩
  case case2 => cases h
  case case3 start found b bs c length hf hi =>
    obtain ⟨ds, hc, hb⟩ := hi h
    refine ⟨c :: ds, by simpa using hc, ?_⟩
    rw [encode, List.flatMap_cons, encodeChar_of_first hf, ← encode, ← hb, List.cons_append, List.take_append_drop]

-- Bytes are decoded if they encode something, and then to that.
theorem decode_eq_ok_iff {bs : List UInt8} {cs : List Char} : decode bs = .ok cs ↔ bs = encode cs := by
  constructor
  case mp =>
    intro h
    obtain ⟨ds, hc, hb⟩ := encode_of_decodeFrom h
    cases hc
    exact hb
  case mpr =>
    rintro rfl
    exact decode_encode cs

end ParenTree.Utf8
