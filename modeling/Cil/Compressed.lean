import Cil.Encoding

/-!
Compressed integers. The two high bits of the first byte tell a form of one, two or four bytes,
which hold 7, 14 and 29 bits. A signed number goes through `rotate`, which puts its sign into the
lowest bit. Readers return the rest of their input.
-/

namespace Cil
namespace Compressed

/-- The greatest number with a compressed form. -/
def limit : Nat := 0x1FFFFFFF

/-- The bytes that the compressed form of a number takes. -/
def size (n : Nat) : Nat :=
  if n ≤ 0x7F then 1 else if n ≤ 0x3FFF then 2 else 4

def unsigned (n : Nat) : Field :=
  if n ≤ 0x7F then .ok (.be 1 n)
  else if n ≤ 0x3FFF then .ok (.be 2 (0x8000 + n))
  else if n ≤ limit then .ok (.be 4 (0xC0000000 + n))
  else .error (.unsignedRange n)

/-- The compressed form of a length, of which 32 bits are kept. -/
def count (length : Nat) : Field := unsigned (length % 0x100000000)

/-- Moves the sign of a number of `bits` bits into its lowest bit. -/
def rotate (bits : Nat) (v : Int) : Nat :=
  if v < 0 then 2 * (v + Nat.pow 2 (bits - 1)).toNat + 1 else 2 * v.toNat

def unrotate (bits raw : Nat) : Int :=
  if raw % 2 = 1 then (raw / 2 : Nat) - Nat.pow 2 (bits - 1) else (raw / 2 : Nat)

/-- The range of signed numbers that fit in `bits` bits. -/
def Fits (bits : Nat) (v : Int) : Prop := -Nat.pow 2 (bits - 1) ≤ v ∧ v < Nat.pow 2 (bits - 1)

instance (bits : Nat) (v : Int) : Decidable (Fits bits v) := by
  unfold Fits; infer_instance

def signed (v : Int) : Field :=
  if Fits 7 v then .ok (.be 1 (rotate 7 v))
  else if Fits 14 v then .ok (.be 2 (0x8000 + rotate 14 v))
  else if Fits 29 v then .ok (.be 4 (0xC0000000 + rotate 29 v))
  else .error (.signedRange v)

/-- The number of payload bits in front, the payload, and the rest of the input. -/
def readPayload : Bytes → Option (Nat × Nat × Bytes)
  | [] => none
  | b1 :: rest =>
    if b1.toNat < 0x80 then some (7, b1.toNat, rest)
    else
      match rest with
      | [] => none
      | b2 :: rest =>
        if b1.toNat < 0xC0 then some (14, b1.toNat % 64 * 256 + b2.toNat, rest)
        else
          match rest with
          | b3 :: b4 :: rest => some (29, Bytes.ofBe [b1 % 32, b2, b3, b4], rest)
          | _ => none

def readUnsigned (input : Bytes) : Option (Nat × Bytes) :=
  (readPayload input).map fun (_, raw, rest) => (raw, rest)

def readSigned (input : Bytes) : Option (Int × Bytes) :=
  (readPayload input).map fun (bits, raw, rest) => (unrotate bits raw, rest)

end Compressed
end Cil
