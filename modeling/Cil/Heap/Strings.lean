import Cil.Heap

/-!
The heap of names: UTF-8 texts, each with a zero byte behind it.
-/

namespace Cil

abbrev StringHeap := Heap String

namespace StringHeap

def write (h : StringHeap) (s : String) : Nat × StringHeap :=
  if s.isEmpty then (0, h) else h.intern s (Bytes.ofText s ++ [0])

/-- The text from an offset up to the next zero byte. -/
def read (h : StringHeap) (offset : Nat) : Except EncodingError String :=
  match h.from? offset with
  | none => .error .noRoom
  | some bytes =>
    match Bytes.text? (bytes.takeWhile (· != 0)) with
    | some s => .ok s
    | none => .error .notText

end StringHeap
end Cil
