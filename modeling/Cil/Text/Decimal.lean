/-!
Decimals for binary floating-point values. The decimal of a value has the fewest digits among those
that read back as the value, and is the nearest to it of those; of two equally near ones it is the
greater.
-/

namespace Cil

/-- A format of binary floating-point values, by the widths of its fields. -/
structure FloatFormat where
  mantissaBits : Nat
  exponentBits : Nat

def FloatFormat.single : FloatFormat := ⟨23, 8⟩

def FloatFormat.double : FloatFormat := ⟨52, 11⟩

/-- A finite value `mantissa * 2 ^ exponent`. The gap below it is half the gap above it where
`narrowBelow` holds. -/
structure Binary where
  mantissa : Nat
  exponent : Int
  narrowBelow : Bool

inductive FloatValue
  | nan
  | infinite (negative : Bool)
  | finite (negative : Bool) (magnitude : Binary)

def FloatFormat.decode (f : FloatFormat) (bits : Nat) : FloatValue :=
  let fraction := bits % Nat.pow 2 f.mantissaBits
  let biased := bits / Nat.pow 2 f.mantissaBits % Nat.pow 2 f.exponentBits
  let negative := bits / Nat.pow 2 (f.mantissaBits + f.exponentBits) % 2 == 1
  let lowest : Int := 2 - Nat.pow 2 (f.exponentBits - 1) - f.mantissaBits
  if biased = Nat.pow 2 f.exponentBits - 1 then
    if fraction = 0 then .infinite negative else .nan
  else if biased = 0 then .finite negative ⟨fraction, lowest, false⟩
  else
    .finite negative
      ⟨Nat.pow 2 f.mantissaBits + fraction, lowest + (biased - 1 : Nat),
        fraction == 0 && 1 < biased⟩

/-- The number `digits * 10 ^ exponent`. -/
structure Decimal where
  digits : Nat
  exponent : Int
  deriving DecidableEq

namespace Decimal

/-- Compares `a * 10 ^ i` with `n * 2 ^ j`. -/
def compareScaled (a : Nat) (i : Int) (n : Nat) (j : Int) : Ordering :=
  compare (a * Nat.pow 10 i.toNat * Nat.pow 2 (-j).toNat)
    (n * Nat.pow 2 j.toNat * Nat.pow 10 (-i).toNat)

/-- Whether a decimal lies among the reals that round to the value; the ends of that interval belong
to it if the mantissa is even. -/
def readsBack (x : Binary) (d : Decimal) : Bool :=
  let low := if x.narrowBelow then 4 * x.mantissa - 1 else 4 * x.mantissa - 2
  let high := 4 * x.mantissa + 2
  let closed := x.mantissa % 2 == 0
  let below := compareScaled d.digits d.exponent low (x.exponent - 2)
  let above := compareScaled d.digits d.exponent high (x.exponent - 2)
  (below == .gt || (closed && below == .eq)) && (above == .lt || (closed && above == .eq))

/-- The greatest multiple of `10 ^ grid` that is not above the value, divided by it. -/
def floor (x : Binary) (grid : Int) : Nat :=
  x.mantissa * Nat.pow 2 x.exponent.toNat * Nat.pow 10 (-grid).toNat /
    (Nat.pow 2 (-x.exponent).toNat * Nat.pow 10 grid.toNat)

/-- The point of a grid nearest to the value among those that read back. -/
def onGrid? (x : Binary) (grid : Int) : Option Decimal :=
  let low := floor x grid
  let candidates := [low + 1, low].filter fun n => readsBack x ⟨n, grid⟩
  match candidates with
  | [] => none
  | [n] => some ⟨n, grid⟩
  | _ =>
    -- the upper one unless the value lies below the middle
    if compareScaled (2 * low + 1) grid (2 * x.mantissa) x.exponent == .gt then some ⟨low, grid⟩
    else some ⟨low + 1, grid⟩

/-- The least `k` with a value below `10 ^ k`, searched downwards from an upper bound. -/
def scaleFrom (x : Binary) : Nat → Int → Int
  | 0, k => k
  | fuel + 1, k =>
    if compareScaled 1 (k - 1) x.mantissa x.exponent == .gt then scaleFrom x fuel (k - 1) else k

/-- The number of places in front of the decimal point, or minus the zeros behind it. -/
def scale (x : Binary) : Int :=
  let bits : Int := (Nat.log2 x.mantissa + 1 : Nat) + x.exponent
  -- never less than the number of places, and more by a tenth of the bits at most
  let bound := if bits < 0 then bits * 3 / 10 + 1 else bits / 3 + 1
  scaleFrom x (bits.natAbs / 10 + 4) bound

/-- Moves zeros at the end of the digits into the exponent. -/
def stripZeros : Nat → Decimal → Decimal
  | 0, d => d
  | fuel + 1, d =>
    if d.digits ≠ 0 ∧ d.digits % 10 = 0 then stripZeros fuel ⟨d.digits / 10, d.exponent + 1⟩ else d

/-- The value itself, written out. -/
def exact (x : Binary) : Decimal :=
  ⟨x.mantissa * Nat.pow 2 x.exponent.toNat * Nat.pow 5 (-x.exponent).toNat, min x.exponent 0⟩

/-- The decimal of a positive value. -/
def ofBinary (x : Binary) : Decimal :=
  let k := scale x
  let found := (List.range 17).findSome? fun n => onGrid? x (k - (n + 1 : Nat))
  stripZeros 20 (found.getD (exact x))

end Decimal
end Cil
