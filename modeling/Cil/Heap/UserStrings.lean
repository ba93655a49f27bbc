import Cil.Heap

/-!
The heap of string literals: UTF-16 units behind the compressed length of the entry, and a last byte
that tells whether a unit needs more than plain eight-bit handling.
-/

namespace Cil

abbrev UserStringHeap := Heap String

namespace UserStringHeap

def isSpecial (unit : UInt16) : Bool :=
  let n := unit.toNat
  0x100 ≤ n || (0x01 ≤ n && n ≤ 0x08) || (0x0E ≤ n && n ≤ 0x1F) || n == 0x27 || n == 0x2D ||
    n == 0x7F

/-- The units of a literal and the byte behind them. -/
def content (s : String) : List Field :=
  let units := Bytes.units s
  [.ok (units.flatMap fun u => Bytes.le 2 u.toNat), .ok [if units.any isSpecial then 1 else 0]]

/-- The number of bytes of an entry. -/
def length (s : String) : Nat := 2 * (Bytes.units s).length + 1

/-- The number that each pair of bytes stands for; an odd byte at the end is dropped. -/
def pairs : Bytes → List Nat
  | low :: high :: rest => Bytes.ofLe [low, high] :: pairs rest
  | _ => []

def read (h : UserStringHeap) (offset : Nat) : Except EncodingError (List Nat) :=
  match h.sized? offset with
  | some entry => .ok (pairs entry.dropLast)
  | none => .error .noRoom

end UserStringHeap

abbrev UserStringWriter := HeapWriter String

def UserStringWriter.write (w : UserStringWriter) (s : String) :
    Except EncodingError Nat × UserStringWriter :=
  HeapWriter.write w s (Compressed.count (UserStringHeap.length s) :: UserStringHeap.content s)

end Cil
