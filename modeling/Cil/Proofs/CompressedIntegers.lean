import Cil.Compressed

/-!
Compressed integers read back. The three forms are told apart by the first byte, so that a number is
known by its form whatever follows it. Each number has the shortest of the forms that hold it.
-/

namespace Cil
namespace Compressed

variable {n : Nat} {bytes : Bytes} {bits raw : Nat}

theorem readPayload_one (small : n < 0x80) (rest : Bytes) :
    readPayload (.be 1 n ++ rest) = some (7, n, rest) := by
  have first : (UInt8.ofNat n).toNat = n := UInt8.toNat_ofNat_of_lt' (show n < 256 by omega)
  simp [Bytes.be, Bytes.le, readPayload, first, small]

theorem readPayload_two (small : n < 0x4000) (rest : Bytes) :
    readPayload (.be 2 (0x8000 + n) ++ rest) = some (14, n, rest) := by
  have first : (UInt8.ofNat ((0x8000 + n) / 256)).toNat = 0x80 + n / 256 := by
    rw [UInt8.toNat_ofNat']
    omega
  have payload : (0x80 + n / 256) % 64 * 256 + n % 256 = n := by omega
  have form : 0x80 + n / 256 < 0xC0 := by omega
  simp [Bytes.be, Bytes.le, readPayload, first, payload, form]

theorem readPayload_four (small : n ≤ limit) (rest : Bytes) :
    readPayload (.be 4 (0xC0000000 + n) ++ rest) = some (29, n, rest) := by
  have bound : n < 0x20000000 := Nat.lt_succ_of_le small
  have first : (UInt8.ofNat ((0xC0000000 + n) / 256 / 256 / 256)).toNat = 0xC0 + n / 0x1000000 := by
    rw [UInt8.toNat_ofNat']
    omega
  -- The reader drops the two bits of the form, which the first of four bytes has above its five.
  have payload : Bytes.ofBe [UInt8.ofNat ((0xC0000000 + n) / 256 / 256 / 256) % 32,
      UInt8.ofNat ((0xC0000000 + n) / 256 / 256), UInt8.ofNat ((0xC0000000 + n) / 256),
      UInt8.ofNat (0xC0000000 + n)] = n := by
    simp only [Bytes.ofBe, List.reverse_cons, List.reverse_nil, List.nil_append, List.cons_append,
      Bytes.ofLe, UInt8.toNat_mod, UInt8.toNat_ofNat', first]
    simp
    omega
  change readPayload (_ :: _ :: _ :: _ :: rest) = _
  simp only [readPayload, first, payload]
  rw [if_neg (by omega), if_neg (by omega)]

theorem readUnsigned_unsigned (h : unsigned n = .ok bytes) (rest : Bytes) :
    readUnsigned (bytes ++ rest) = some (n, rest) := by
  rw [unsigned] at h
  split at h
  · cases h
    rw [readUnsigned, readPayload_one (by omega)]
    rfl
  split at h
  · cases h
    rw [readUnsigned, readPayload_two (by omega)]
    rfl
  split at h
  · cases h
    rw [readUnsigned, readPayload_four (by assumption)]
    rfl
  · cases h

theorem unsigned_front (h : unsigned n = .ok bytes) : ∃ b more, bytes = b :: more ∧ b < 0xE0 := by
  have low {v : Nat} (small : v < 0xE0) : UInt8.ofNat v < 0xE0 := by
    rw [UInt8.lt_iff_toNat_lt, UInt8.toNat_ofNat_of_lt' (show v < 256 by omega)]
    exact small
  rw [unsigned] at h
  split at h
  · cases h
    exact ⟨_, _, rfl, low (by omega)⟩
  split at h
  · cases h
    exact ⟨UInt8.ofNat ((0x8000 + n) / 256), _, rfl, low (by omega)⟩
  split at h
  case isTrue small =>
    cases h
    rw [limit] at small
    exact ⟨UInt8.ofNat ((0xC0000000 + n) / 256 / 256 / 256), _, rfl, low (by omega)⟩
  cases h

theorem rotate_lt {v : Int} (h : Fits (bits + 1) v) : rotate (bits + 1) v < Nat.pow 2 (bits + 1) := by
  obtain ⟨low, high⟩ := h
  have double : Nat.pow 2 (bits + 1) = 2 * Nat.pow 2 bits := Nat.pow_succ'
  rw [rotate]
  simp only [Nat.add_sub_cancel] at low high ⊢
  split <;> omega

theorem unrotate_rotate {v : Int} (h : Fits (bits + 1) v) :
    unrotate (bits + 1) (rotate (bits + 1) v) = v := by
  obtain ⟨low, high⟩ := h
  simp only [Nat.add_sub_cancel] at low high
  rw [rotate, unrotate]
  simp only [Nat.add_sub_cancel]
  split
  · rw [if_pos (by omega)]
    omega
  · rw [if_neg (by omega)]
    omega

theorem readSigned_signed {v : Int} (h : signed v = .ok bytes) (rest : Bytes) :
    readSigned (bytes ++ rest) = some (v, rest) := by
  have back {bits : Nat} (fits : Fits (bits + 1) v) :
      some (unrotate (bits + 1) (rotate (bits + 1) v), rest) = some (v, rest) :=
    congrArg (fun v => some (v, rest)) (unrotate_rotate fits)
  rw [signed] at h
  split at h
  case isTrue fits =>
    cases h
    rw [readSigned, readPayload_one (rotate_lt fits)]
    exact back fits
  split at h
  case isTrue fits =>
    cases h
    rw [readSigned, readPayload_two (rotate_lt fits)]
    exact back fits
  split at h
  case isTrue fits =>
    cases h
    have small : rotate 29 v < 0x20000000 := rotate_lt fits
    rw [readSigned, readPayload_four (Nat.le_of_lt_succ small)]
    exact back fits
  cases h

variable {v : Int} {input rest : Bytes}

/-- One of the three forms is read. -/
theorem readPayload_form (h : readPayload input = some (bits, raw, rest)) :
    (bits = 7 ∧ raw < 0x80 ∧ rest.length + 1 = input.length) ∨
      (bits = 14 ∧ raw < 0x4000 ∧ rest.length + 2 = input.length) ∨
      (bits = 29 ∧ raw < 0x20000000 ∧ rest.length + 4 = input.length) := by
  unfold readPayload at h
  split at h
  case h_1 => cases h
  case h_2 b₁ _ =>
    split at h
    case isTrue small =>
      cases h
      exact .inl ⟨rfl, small, rfl⟩
    split at h
    case h_1 => cases h
    case h_2 b₂ _ =>
      have second := b₂.toNat_lt
      split at h
      case isTrue =>
        cases h
        exact .inr (.inl ⟨rfl, by omega, rfl⟩)
      split at h
      case h_1 b₃ b₄ _ =>
        cases h
        have third := b₃.toNat_lt
        have fourth := b₄.toNat_lt
        have payload : Bytes.ofBe [b₁ % 32, b₂, b₃, b₄] =
            b₄.toNat + 256 * (b₃.toNat + 256 * (b₂.toNat + 256 * (b₁.toNat % 32))) := rfl
        exact .inr (.inr ⟨rfl, by omega, rfl⟩)
      case h_2 => cases h

theorem unsigned_eq_ok_iff : (∃ bytes, unsigned n = .ok bytes) ↔ n ≤ limit := by
  rw [unsigned]
  split
  case isTrue small => exact ⟨fun _ => Nat.le_trans small (by decide), fun _ => ⟨_, rfl⟩⟩
  split
  case isTrue small => exact ⟨fun _ => Nat.le_trans small (by decide), fun _ => ⟨_, rfl⟩⟩
  split
  case isTrue small => exact ⟨fun _ => small, fun _ => ⟨_, rfl⟩⟩
  case isFalse large => exact ⟨by simp, fun small => absurd small large⟩

theorem unsigned_ne_nil (h : unsigned n = .ok bytes) :
    bytes ≠ [] := by
  rintro rfl
  have read := readUnsigned_unsigned h []
  cases read

theorem length_unsigned (h : unsigned n = .ok bytes) : bytes.length = size n := by
  rw [unsigned] at h
  unfold size
  split at h
  case isTrue small =>
    cases h
    rw [if_pos small, Bytes.length_be]
  case isFalse large =>
    rw [if_neg large]
    split at h
    case isTrue small =>
      cases h
      rw [if_pos small, Bytes.length_be]
    case isFalse large =>
      rw [if_neg large]
      split at h
      · cases h
        exact Bytes.length_be ..
      · cases h

theorem size_le (n : Nat) : (n < 0x80 → size n ≤ 1) ∧ (n < 0x4000 → size n ≤ 2) ∧ size n ≤ 4 := by
  by_cases one : n ≤ 0x7F
  · simp [size, one]
  · by_cases two : n ≤ 0x3FFF
    · rw [size, if_neg one, if_pos two]
      omega
    · rw [size, if_neg one, if_neg two]
      omega

theorem length_signed (h : signed v = .ok bytes) :
    (Fits 7 v → bytes.length ≤ 1) ∧ (Fits 14 v → bytes.length ≤ 2) ∧ bytes.length ≤ 4 := by
  rw [signed] at h
  split at h
  case isTrue fits =>
    cases h
    simp
  case isFalse large =>
    split at h
    case isTrue =>
      cases h
      simp [large]
    case isFalse larger =>
      split at h
      · cases h
        simp [large, larger]
      · cases h

theorem fits_unrotate (small : raw < Nat.pow 2 (bits + 1)) :
    Fits (bits + 1) (unrotate (bits + 1) raw) := by
  have double : Nat.pow 2 (bits + 1) = 2 * Nat.pow 2 bits := Nat.pow_succ'
  rw [Fits, unrotate]
  simp only [Nat.add_sub_cancel]
  split <;> omega

/-- The word whose low `bits` bits are set. -/
def lowMask (bits : UInt32) : UInt32 := 1 <<< bits - 1

/-- `rotate` on words, with masks and shifts. -/
def rotateWord (bits : UInt32) (value : Int32) : UInt32 :=
  let twos := value.toUInt32 &&& lowMask bits
  (twos <<< 1 ||| twos >>> (bits - 1)) &&& lowMask bits

/-- `unrotate` on words. The last two shifts extend the sign. -/
def unrotateWord (bits raw : UInt32) : Int32 :=
  let twos := (raw >>> 1 ||| raw <<< (bits - 1)) &&& lowMask bits
  (twos <<< (32 - bits)).toInt32 >>> (32 - bits).toInt32

section

-- the payload bits of the three forms
variable (width : bits = 7 ∨ bits = 14 ∨ bits = 29)

include width

theorem toNat_and_lowMask (w : UInt32) :
    (w &&& lowMask (.ofNat bits)).toNat = w.toNat % Nat.pow 2 bits := by
  have mask : (lowMask (.ofNat bits)).toNat = Nat.pow 2 bits - 1 := by
    rcases width with rfl | rfl | rfl <;> rfl
  rw [UInt32.toNat_and, mask]
  exact Nat.and_two_pow_sub_one_eq_mod ..

/-- The low bits of a number that fits in them, where a negative one stands above the others. -/
theorem toNat_twos {v : Int} (fits : Fits bits v) :
    (((Int32.ofInt v).toUInt32 &&& lowMask (.ofNat bits)).toNat : Int) =
      if v < 0 then v + (Nat.pow 2 bits : Nat) else v := by
  have word : ((Int32.ofInt v).toUInt32.toNat : Int) = v % (0x100000000 : Nat) := by
    change ((BitVec.ofInt 32 v).toNat : Int) = _
    rw [BitVec.toNat_ofInt, Int.toNat_of_nonneg (Int.emod_nonneg _ (by decide))]
  obtain ⟨low, high⟩ := fits
  rw [toNat_and_lowMask width]
  rcases width with rfl | rfl | rfl <;> simp at low high ⊢ <;> split <;> omega

theorem toNat_rotateWord {v : Int} (fits : Fits bits v) :
    (rotateWord (.ofNat bits) (.ofInt v)).toNat = rotate bits v := by
  have twos := toNat_twos width fits
  obtain ⟨low, high⟩ := fits
  rw [rotateWord, rotate, toNat_and_lowMask width]
  generalize (Int32.ofInt v).toUInt32 &&& lowMask (.ofNat bits) = t at twos ⊢
  have append {b : Nat} (bit : b < 2) : 2 * t.toNat ||| b = 2 * t.toNat + b :=
    (Nat.two_pow_add_eq_or_of_lt (i := 1) bit _).symm
  rcases width with rfl | rfl | rfl
  all_goals
    simp [Nat.shiftLeft_eq, Nat.shiftRight_eq_div_pow] at low high twos ⊢
    rw [Nat.mod_eq_of_lt (a := t.toNat * 2) (by omega), Nat.mul_comm]
    split at twos
    case isTrue sign =>
      rw [if_pos sign, Nat.div_eq_of_lt_le (k := 1) (by omega) (by omega), append (by decide)]
      omega
    case isFalse sign =>
      rw [if_neg sign, Nat.div_eq_of_lt (by omega), append (by decide)]
      omega

theorem toInt_unrotateWord (small : raw < Nat.pow 2 bits) :
    (unrotateWord (.ofNat bits) (.ofNat raw)).toInt = unrotate bits raw := by
  obtain ⟨low, high, half⟩ : (UInt32.ofNat raw >>> 1).toNat % Nat.pow 2 bits = raw / 2 ∧
      (UInt32.ofNat raw <<< (.ofNat bits - 1)).toNat % Nat.pow 2 bits =
        Nat.pow 2 (bits - 1) * (raw % 2) ∧ raw / 2 < Nat.pow 2 (bits - 1) := by
    rcases width with rfl | rfl | rfl <;>
      simp [Nat.shiftLeft_eq, Nat.shiftRight_eq_div_pow] at small ⊢ <;> omega
  have twos : ((UInt32.ofNat raw >>> 1 ||| UInt32.ofNat raw <<< (.ofNat bits - 1)) &&&
      lowMask (.ofNat bits)).toNat = Nat.pow 2 (bits - 1) * (raw % 2) + raw / 2 := by
    rw [toNat_and_lowMask width, UInt32.toNat_or]
    refine Nat.or_mod_two_pow.trans ?_
    rw [← Nat.pow_eq, low, high, Nat.or_comm]
    exact (Nat.two_pow_add_eq_or_of_lt half _).symm
  rw [unrotateWord, unrotate]
  generalize _ &&& lowMask _ = t at twos ⊢
  rcases width with rfl | rfl | rfl
  all_goals
    simp at small twos
    rw [Int32.toInt, Int32.toBitVec_shiftRight, BitVec.toInt_sshiftRight']
    simp [Int.shiftRight_eq_div_pow, BitVec.toInt_eq_toNat_cond, Nat.shiftLeft_eq]
    omega

end

theorem Fits.mono {few many : Nat} (le : few ≤ many) (h : Fits few v) : Fits many v := by
  have : Nat.pow 2 (few - 1) ≤ Nat.pow 2 (many - 1) := Nat.pow_le_pow_right (by decide) (by omega)
  rw [Fits] at h ⊢
  omega

theorem refuses_error (e : EncodingError) : Field.written [.error e] = [] ∧
    ∀ room?, Field.write room? [.error e] = .error e := by
  refine ⟨rfl, fun room? => ?_⟩
  cases room? with
  | none => rfl
  | some room => simp [Field.write, Field.fill, Field.written, Except.toOption]; rfl

/-- Values in range are read back from in front of anything, and from nothing shorter; the others are
refused with no byte written; and what is read is in range. -/
structure Faithful {α : Type} (inRange : α → Prop) (encode : α → Field)
    (read : Bytes → Option (α × Bytes)) (refusal : α → EncodingError) : Prop where
  encodes {a : α} : inRange a → ∃ bytes, encode a = .ok bytes ∧
    ∀ rest, read (bytes ++ rest) = some (a, rest)
  least {a : α} {bytes input rest : Bytes} : encode a = .ok bytes → read input = some (a, rest) →
    rest.length + bytes.length ≤ input.length
  refuses {a : α} : ¬ inRange a → Field.written [encode a] = [] ∧
    ∀ room?, Field.write room? [encode a] = .error (refusal a)
  ranged {a : α} {input rest : Bytes} : read input = some (a, rest) → inRange a

theorem faithful_unsigned : Faithful (· ≤ limit) unsigned readUnsigned .unsignedRange where
  encodes {n} inRange := by
    exact (unsigned_eq_ok_iff.2 inRange).imp fun _ encoded => ⟨encoded, readUnsigned_unsigned encoded⟩
  least {n bytes input rest} encoded read := by
    obtain ⟨⟨bits, raw, _⟩, payload, same⟩ := Option.map_eq_some_iff.1 read
    cases same
    have form := readPayload_form payload
    have sizes := size_le n
    rw [length_unsigned encoded]
    omega
  refuses {n} outside := by
    rw [limit] at outside
    have refused : unsigned n = .error (.unsignedRange n) := by
      rw [unsigned, if_neg (by omega), if_neg (by omega), limit, if_neg outside]
    rw [refused]
    exact refuses_error _
  ranged {n input rest} read := by
    obtain ⟨⟨bits, raw, _⟩, payload, same⟩ := Option.map_eq_some_iff.1 read
    cases same
    have form := readPayload_form payload
    rw [limit]
    omega

theorem faithful_signed : Faithful (Fits 29) signed readSigned .signedRange where
  encodes {v} inRange := by
    have encoded : ∃ bytes, signed v = .ok bytes := by
      rw [signed, if_pos inRange]
      split
      · exact ⟨_, rfl⟩
      · split <;> exact ⟨_, rfl⟩
    exact encoded.imp fun bytes encoded => ⟨encoded, readSigned_signed encoded⟩
  least {v bytes input rest} encoded read := by
    obtain ⟨⟨bits, raw, _⟩, payload, same⟩ := Option.map_eq_some_iff.1 read
    cases same
    -- the form that is read fits the value, and a value is encoded in the first form that does
    obtain ⟨one, two, four⟩ := length_signed encoded
    rcases readPayload_form payload with ⟨rfl, small, length⟩ | ⟨rfl, small, length⟩ | ⟨_, _, length⟩
    · exact length ▸ Nat.add_le_add_left (one (fits_unrotate small)) _
    · exact length ▸ Nat.add_le_add_left (two (fits_unrotate small)) _
    · exact length ▸ Nat.add_le_add_left four _
  refuses {v} outside := by
    have refused : signed v = .error (.signedRange v) := by
      rw [signed, if_neg fun h => outside (h.mono (by decide)),
        if_neg fun h => outside (h.mono (by decide)), if_neg outside]
    rw [refused]
    exact refuses_error _
  ranged {v input rest} read := by
    obtain ⟨⟨bits, raw, _⟩, payload, same⟩ := Option.map_eq_some_iff.1 read
    cases same
    rcases readPayload_form payload with ⟨rfl, small, _⟩ | ⟨rfl, small, _⟩ | ⟨rfl, small, _⟩ <;>
      exact (fits_unrotate small).mono (by decide)

/-- Compressed integers are told apart from what follows them, and have no shorter form. -/
theorem compressed_faithful : Faithful (· ≤ 0x1FFFFFFF) unsigned readUnsigned .unsignedRange ∧
    (∀ n bytes, unsigned n = .ok bytes → bytes.length = size n) ∧
    Faithful (fun v : Int => -0x10000000 ≤ v ∧ v < 0x10000000) signed readSigned .signedRange :=
  ⟨faithful_unsigned, fun _ _ => length_unsigned, faithful_signed⟩

end Compressed
end Cil
