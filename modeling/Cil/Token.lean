import Cil.Encoding

/-!
Metadata tokens: what an instruction operand or the entry point uses to name a table row or a user
string. The top byte of a token tells the table, the low three bytes the row.
-/

namespace Cil

inductive Token.Target
  | table (t : Table)
  | userString
  deriving DecidableEq

structure Token where
  target : Token.Target
  index : Nat
  deriving DecidableEq

namespace Token

def row (t : Table) (number : Nat) : Token := ⟨.table t, number⟩

def userString (offset : Nat) : Token := ⟨.userString, offset⟩

/-- The top byte of tokens to user strings. -/
def userStringTag : Nat := 0x70

def tag (token : Token) : Nat :=
  match token.target with
  | .table t => t.number
  | .userString => userStringTag

def encode (token : Token) : Except EncodingError Nat :=
  if token.index < 0x1000000 then .ok (token.tag * 0x1000000 + token.index)
  else .error (.tokenIndex token.index)

def decode (value : Nat) : Except EncodingError Token :=
  let tag := value / 0x1000000
  let index := value % 0x1000000
  if tag = userStringTag then .ok (userString index)
  else
    match Table.ofNumber? tag with
    | some t => .ok (row t index)
    | none => .error (.tokenTag tag)

end Token
end Cil
