import Cil.Heap

/-!
The heap of byte strings: signatures, constants and attribute values, each behind its compressed
length.
-/

namespace Cil

abbrev BlobHeap := Heap Bytes

namespace BlobHeap

def read (h : BlobHeap) (offset : Nat) : Except EncodingError Bytes :=
  if offset = 0 then .ok []
  else
    match h.sized? offset with
    | some blob => .ok blob
    | none => .error .noRoom

/-- Whether a blob stands at an offset. -/
def holds (h : BlobHeap) (offset : Nat) (blob : Bytes) : Bool :=
  match h.read offset with
  | .ok found => found == blob
  | .error _ => false

end BlobHeap

abbrev BlobWriter := HeapWriter Bytes

/-- The offset of a blob; the empty one is the reserved byte. -/
def BlobWriter.write (w : BlobWriter) (blob : Bytes) : Except EncodingError Nat × BlobWriter :=
  if blob.isEmpty then (.ok 0, w)
  else HeapWriter.write w blob [Compressed.count blob.length, .ok blob]

end Cil
