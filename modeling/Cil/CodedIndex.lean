import Cil.Encoding

/-!
Coded indices. A coded index of a kind is null or a row of one of the tables of that kind; its code
holds the row number above the tag of the table. Coded indices are ordered by row and then by tag,
which is the order of their codes.
-/

namespace Cil

inductive CodedIndex (k : CodedIndex.Kind)
  | null
  | row (table : Table) (number : Nat) (mem : table ∈ k.tables := by decide)
  deriving DecidableEq

namespace CodedIndex

variable {k : Kind}

instance : Inhabited (CodedIndex k) := ⟨null⟩

/-- The index of a row, if the kind has its table. -/
def ofRow? (k : Kind) (table : Table) (number : Nat) : Option (CodedIndex k) :=
  if h : table ∈ k.tables then some (row table number h) else none

def table? : CodedIndex k → Option Table
  | null => none
  | row t _ _ => some t

def number : CodedIndex k → Nat
  | null => 0
  | row _ n _ => n

def tag : CodedIndex k → Nat
  | null => 0
  | row t _ _ => k.tag t

/-- The code of an index; the row has to leave room for the tag in 32 bits. -/
def encode (i : CodedIndex k) : Except EncodingError Nat :=
  if i.number < Nat.pow 2 (32 - k.tagBits) then .ok (i.number * Nat.pow 2 k.tagBits + i.tag)
  else .error (.codedRow k i.number)

def decode (k : Kind) (code : Nat) : Except EncodingError (CodedIndex k) :=
  if code = 0 then .ok null
  else
    match h : k.table? (code % Nat.pow 2 k.tagBits) with
    | some t => .ok (row t (code / Nat.pow 2 k.tagBits) (Kind.mem_tables h))
    | none => .error (.codedTag k (code % Nat.pow 2 k.tagBits))

/-- The order of coded indices: by row, and by tag within a row number. -/
def le (a b : CodedIndex k) : Bool :=
  a.number < b.number || (a.number == b.number && a.tag ≤ b.tag)

/-- A code needs four bytes as soon as one of its tables has too many rows for two. -/
def Kind.wide (k : Kind) (rows : Table → Nat) : Bool :=
  k.tables.any fun t => Nat.pow 2 (16 - k.tagBits) ≤ rows t

end CodedIndex

abbrev TypeDefOrRef := CodedIndex .typeDefOrRef
abbrev MethodDefOrRef := CodedIndex .methodDefOrRef

end Cil
