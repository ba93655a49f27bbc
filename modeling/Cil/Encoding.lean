import Cil.Bytes
import Cil.CodedIndex.Kind

/-!
What can be written, and what cannot. An encoding is a list of fields written one after another; a
field is its bytes or the reason why its value has none. `join` writes all fields, `fill` writes them
into an area of fixed size.
-/

namespace Cil

/-- Why a value has no encoding, or bytes have no meaning. -/
inductive EncodingError
  | unsignedRange (value : Nat)
  | signedRange (value : Int)
  | tokenIndex (index : Nat)
  | tokenTag (tag : Nat)
  | codedRow (kind : CodedIndex.Kind) (row : Nat)
  | codedTag (kind : CodedIndex.Kind) (tag : Nat)
  | bodySize (size : Nat)
  | clauseCount (count : Nat)
  /-- The area is too small, or the input ends too early. -/
  | noRoom
  /-- Bytes that are no UTF-8 text. -/
  | notText
  deriving DecidableEq

/-- The text of an error, for those that have one. -/
def EncodingError.message? : EncodingError → Option String
  | unsignedRange v =>
    some s!"invalid unsigned compressed integer {hexNumber 8 v}, range is 0..=0x1FFFFFFF"
  | signedRange v =>
    some s!"invalid signed compressed integer {v}, range is (-2^28)..=(2^28 - 1)"
  | tokenIndex i => some s!"token index {hexNumber 1 i} does not fit in 24 bits"
  | tokenTag t => some s!"bad token table tag {hexNumber 2 t}"
  | codedRow k r => some s!"row {r} does not fit in a {k.name} coded index"
  | codedTag k t => some s!"bad {k.name} coded index tag {t}"
  | bodySize n => some s!"method body of {n} bytes is too large"
  | clauseCount n => some s!"{n} exception clauses do not fit in one section"
  | noRoom => none
  | notText => none

/-- One field of an encoding. -/
abbrev Field := Except EncodingError Bytes

namespace Field

def byte (b : UInt8) : Field := .ok [b]

def half (n : Nat) : Field := .ok (.le 2 n)

def word (n : Nat) : Field := .ok (.le 4 n)

/-- The bytes of all fields; the first field without bytes decides. -/
def join (fields : List Field) : Except EncodingError Bytes :=
  (fields.mapM id).map List.flatten

/-- The bytes of fields are those of the first one and then those of the others. -/
theorem join_cons_eq_ok {f : Field} {fields : List Field} {bytes : Bytes} :
    join (f :: fields) = .ok bytes ↔
      ∃ first rest, f = .ok first ∧ join fields = .ok rest ∧ bytes = first ++ rest := by
  rw [join, join, List.mapM_cons]
  cases f with
  | error e => simp [bind, Except.bind, Except.map]
  | ok first =>
    cases fields.mapM id with
    | error e => simp [bind, Except.bind, Except.map]
    | ok rest => simp [bind, Except.bind, pure, Except.pure, Except.map, eq_comm]

/-- What stands in front of the first field without bytes. -/
def written (fields : List Field) : Bytes :=
  (fields.map Except.toOption).takeWhile Option.isSome |>.flatMap (·.getD [])

/-- The bytes of all fields, written into an area of `room` bytes. -/
def fill (room : Nat) (fields : List Field) : Except EncodingError Bytes :=
  if (written fields).length ≤ room then join fields else .error .noRoom

/-- Writes into an area of the given size, or into one that grows. -/
def write (room? : Option Nat) (fields : List Field) : Except EncodingError Bytes :=
  match room? with
  | some room => fill room fields
  | none => join fields

end Field

end Cil
