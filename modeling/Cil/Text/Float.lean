import Cil.Text.Decimal

/-!
The text of floating-point values: positional with at least one place behind the point if the leading
digit stands between `10 ^ -4` and `10 ^ 15`, and with an exponent otherwise.
-/

namespace Cil

namespace Decimal

/-- Digits with a point before the last `places`; zeros fill up. -/
def positional (d : Decimal) : String :=
  let digits := (toString d.digits).toList
  if 0 ≤ d.exponent then
    String.ofList (digits ++ List.replicate d.exponent.toNat '0') ++ ".0"
  else
    let places := (-d.exponent).toNat
    let padded := List.replicate (places + 1 - digits.length) '0' ++ digits
    let split := padded.length - places
    String.ofList (padded.take split) ++ "." ++ String.ofList (padded.drop split)

/-- One digit, the others behind a point, and the exponent of the first. -/
def scientific (d : Decimal) : String :=
  let digits := (toString d.digits).toList
  let exponent := d.exponent + (digits.length - 1 : Nat)
  let fraction := digits.drop 1
  String.ofList (digits.take 1) ++ (if fraction.isEmpty then "" else "." ++ String.ofList fraction)
    ++ "e" ++ toString exponent

def text (d : Decimal) : String :=
  let leading := d.exponent + ((toString d.digits).length - 1 : Nat)
  if -4 ≤ leading ∧ leading < 16 then d.positional else d.scientific

end Decimal

/-- The text of the value with the given bits. -/
def FloatFormat.text (f : FloatFormat) (bits : Nat) : String :=
  let sign (negative : Bool) := if negative then "-" else ""
  match f.decode bits with
  | .nan => "NaN"
  | .infinite negative => sign negative ++ "inf"
  | .finite negative magnitude =>
    sign negative ++
      if magnitude.mantissa = 0 then "0.0" else (Decimal.ofBinary magnitude).text

end Cil
