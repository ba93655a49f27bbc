/-!
Byte strings and the integers written into them. `le` and `be` keep the low bytes of their
argument, so a narrow column stores a number modulo the range of the column; `ofLe` and `ofBe` read
the number back.
-/

namespace Cil

abbrev Bytes := List UInt8

namespace Bytes

/-- The low `width` bytes of a number, the lowest first. -/
def le : (width : Nat) → Nat → Bytes
  | 0, _ => []
  | width + 1, n => UInt8.ofNat n :: le width (n / 256)

/-- The low `width` bytes of a number, the highest first. -/
def be (width n : Nat) : Bytes := (le width n).reverse

def ofLe : Bytes → Nat
  | [] => 0
  | b :: rest => b.toNat + 256 * ofLe rest

def ofBe (bytes : Bytes) : Nat := ofLe bytes.reverse

@[simp] theorem length_le (width n : Nat) : (le width n).length = width := by
  induction width generalizing n with
  | zero => rfl
  | succ width ih => simp [le, ih]

@[simp] theorem length_be (width n : Nat) : (be width n).length = width := by
  simp [be]

theorem ofLe_le (width n : Nat) : ofLe (le width n) = n % Nat.pow 256 width := by
  induction width generalizing n with
  | zero => simp [le, ofLe, Nat.mod_one]
  | succ width ih =>
    have low : (UInt8.ofNat n).toNat = n % 256 := rfl
    have step : Nat.pow 256 (width + 1) = 256 * Nat.pow 256 width := Nat.mul_comm _ _
    rw [le, ofLe, ih, low, step, Nat.mod_mul]

theorem ofBe_be (width n : Nat) : ofBe (be width n) = n % Nat.pow 256 width := by
  simp [ofBe, be, ofLe_le]

def zeros (count : Nat) : Bytes := List.replicate count 0

/-- How many bytes follow `size` bytes up to the next multiple of `alignment`. -/
def padding (alignment size : Nat) : Nat := (alignment - size % alignment) % alignment

def roundUp (alignment size : Nat) : Nat := size + padding alignment size

/-- The bytes followed by the zeros that bring them to a multiple of `alignment`. -/
def padTo (alignment : Nat) (bytes : Bytes) : Bytes :=
  bytes ++ zeros (padding alignment bytes.length)

/-- Parts that stand at offsets of their own, with zeros between them, from a position on. -/
def spread (position : Nat) : List (Nat × Bytes) → Bytes
  | [] => []
  | (start, part) :: rest => zeros (start - position) ++ part ++ spread (start + part.length) rest

@[simp] theorem length_zeros (count : Nat) : (zeros count).length = count := by
  simp [zeros]

theorem le_zero (width : Nat) : le width 0 = zeros width := by
  induction width with
  | zero => rfl
  | succ width ih => simp [le, ih, zeros, List.replicate_succ]

open List in
theorem prefix_drop_iff {data bytes : Bytes} {offset : Nat} :
    data <+: bytes.drop offset ↔ ∀ i < data.length, bytes[offset + i]? = data[i]? := by
  rw [prefix_iff_getElem?]
  refine forall₂_congr fun i inside => ?_
  rw [getElem?_drop, getElem?_eq_getElem inside]

open List in
theorem prefix_drop_append {a b bytes : Bytes} {n : Nat} :
    a ++ b <+: bytes.drop n ↔ a <+: bytes.drop n ∧ b <+: bytes.drop (n + a.length) := by
  rw [← drop_drop]
  constructor
  · rintro ⟨rest, same⟩
    rw [← same]
    simp
  · rintro ⟨⟨rest, same⟩, next⟩
    rw [← same] at next ⊢
    simpa using next

theorem length_padTo (alignment : Nat) (bytes : Bytes) :
    (padTo alignment bytes).length = roundUp alignment bytes.length := by
  simp [padTo, roundUp]

/-- The UTF-8 form of a text. -/
def ofText (text : String) : Bytes := text.toUTF8.data.toList

/-- The text that bytes are the UTF-8 form of. -/
def text? (bytes : Bytes) : Option String := String.fromUTF8? ⟨bytes.toArray⟩

/-- The 16-bit units of a text; a character beyond the first 2^16 takes a surrogate pair. -/
def units (text : String) : List UInt16 :=
  text.toList.flatMap fun c =>
    let n := c.toNat
    if n < 0x10000 then [UInt16.ofNat n]
    else
      let m := n - 0x10000
      [UInt16.ofNat (0xD800 + m / 0x400), UInt16.ofNat (0xDC00 + m % 0x400)]

/-- Two lower-case hexadecimal digits for each byte. -/
def hex (bytes : Bytes) : String :=
  String.ofList (bytes.flatMap fun b =>
    [Nat.digitChar (b.toNat / 16), Nat.digitChar (b.toNat % 16)])

end Bytes

/-- A number in lower-case hexadecimal, with at least `digits` digits. -/
def hexNumber (digits n : Nat) : String :=
  let text := Nat.toDigits 16 n
  "0x" ++ String.ofList (List.replicate (digits - text.length) '0' ++ text)

end Cil
