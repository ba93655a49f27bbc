import Cil.Bytes

/-!
The heap of GUIDs. Indices count entries from 1, so that 0 is no GUID.
-/

namespace Cil

abbrev Guid := Vector UInt8 16

def Guid.zero : Guid := Vector.replicate 16 0

structure GuidHeap where
  entries : Array Guid := #[]

namespace GuidHeap

def size (h : GuidHeap) : Nat := 16 * h.entries.size

def isEmpty (h : GuidHeap) : Bool := h.entries.isEmpty

def write (h : GuidHeap) (g : Guid) : Nat × GuidHeap :=
  match h.entries.findIdx? (· == g) with
  | some i => (i + 1, h)
  | none => (h.entries.size + 1, ⟨h.entries.push g⟩)

def read? (h : GuidHeap) : Nat → Option Guid
  | 0 => none
  | i + 1 => h.entries[i]?

def bytes (h : GuidHeap) : Bytes := h.entries.toList.flatMap (·.toList)

end GuidHeap
end Cil
