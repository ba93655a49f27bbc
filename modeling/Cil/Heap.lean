import Cil.Compressed

/-!
Heaps. A heap is an append-only dictionary: an entry is written once, behind everything written
before it, and later writes of the same entry give its first offset again. Offset 0 is reserved for
the empty entry.
-/

namespace Cil

structure Heap (α : Type) where
  bytes : Array UInt8 := #[0]
  /-- The entries in the order of writing, each with its offset. -/
  entries : Array (α × Nat) := #[]

namespace Heap

variable {α : Type} [BEq α]

def size (h : Heap α) : Nat := h.bytes.size

def offset? (h : Heap α) (entry : α) : Option Nat :=
  (h.entries.find? (·.1 == entry)).map (·.2)

/-- The offset of an entry, which is appended with the given bytes unless it is there. -/
def intern (h : Heap α) (entry : α) (encoding : Bytes) : Nat × Heap α :=
  match h.offset? entry with
  | some offset => (offset, h)
  | none => (h.size, ⟨h.bytes ++ encoding, h.entries.push (entry, h.size)⟩)

/-- Whether there is nothing behind the reserved byte. -/
def isEmpty (h : Heap α) : Bool := h.size ≤ 1

/-- The bytes from an offset on; there are none past the end of the heap. -/
def from? (h : Heap α) (offset : Nat) : Option Bytes :=
  if offset ≤ h.size then some (h.bytes.toList.drop offset) else none

/-- The bytes at an offset, behind their compressed length. -/
def sized? (h : Heap α) (offset : Nat) : Option Bytes := do
  let bytes ← h.from? offset
  let (length, rest) ← Compressed.readUnsigned bytes
  if length ≤ rest.length then some (rest.take length) else none

end Heap

/-- A heap of entries behind their lengths, while it is written. -/
structure HeapWriter (α : Type) where
  buffer : Array UInt8 := #[]
  /-- The entries in the order of writing, each with its offset. -/
  entries : Array (α × Nat) := #[]

namespace HeapWriter

variable {α : Type} [BEq α]

/-- What has been written; the reserved byte is there before anything is. -/
def heap (w : HeapWriter α) : Heap α := ⟨if w.buffer.isEmpty then #[0] else w.buffer, w.entries⟩

/-- The reserved byte is written with the first entry. -/
def reserve (w : HeapWriter α) : HeapWriter α := { w with buffer := w.heap.bytes }

/-- The offset of an entry, which is written with the given fields unless it is there. -/
def write (w : HeapWriter α) (entry : α) (fields : List Field) :
    Except EncodingError Nat × HeapWriter α :=
  match w.heap.offset? entry with
  | some offset => (.ok offset, w)
  | none =>
    let w := w.reserve
    match Field.join fields with
    | .ok encoding =>
      (.ok w.buffer.size, ⟨w.buffer ++ encoding, w.entries.push (entry, w.buffer.size)⟩)
    | .error e => (.error e, w)

end HeapWriter
end Cil
