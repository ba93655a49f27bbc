import Cil.CodedIndex

/-!
Cells of table rows. A cell is a number of fixed width, an offset into a heap, a row of one table or
a coded index; all but the first take two or four bytes, by the size of what they point into. A
narrow cell keeps the low two bytes of its value.
-/

namespace Cil

inductive HeapKind | strings | guids | blobs
  deriving DecidableEq

/-- An offset into a heap; 0 is the empty entry. -/
structure HeapIndex (h : HeapKind) where
  offset : Nat := 0
  deriving DecidableEq

abbrev StringIndex := HeapIndex .strings
abbrev GuidIndex := HeapIndex .guids
abbrev BlobIndex := HeapIndex .blobs

/-- A row of a table, counted from 1; 0 is no row. -/
structure RowIndex (t : Table) where
  number : Nat := 0
  deriving DecidableEq

/-- One bit for each heap that is too large for offsets of two bytes. -/
structure HeapSizes where
  flags : UInt8 := 0
  deriving DecidableEq

namespace HeapSizes

def bit : HeapKind → Nat
  | .strings => 0
  | .guids => 1
  | .blobs => 2

def wide (s : HeapSizes) (kind : HeapKind) : Bool := s.flags.toNat.testBit (bit kind)

def ofLengths (strings guids blobs : Nat) : HeapSizes :=
  let flag (kind : HeapKind) (length : Nat) := if 0x10000 ≤ length then Nat.pow 2 (bit kind) else 0
  ⟨.ofNat (flag .strings strings + flag .guids guids + flag .blobs blobs)⟩

end HeapSizes

/-- What the widths of cells depend on: the heaps, and the number of rows of each table. -/
structure Sizes where
  heaps : HeapSizes
  rows : Table → Nat

inductive Column
  | number (bytes : Nat)
  | heap (kind : HeapKind)
  | row (table : Table)
  | coded (kind : CodedIndex.Kind)
  deriving DecidableEq

inductive Cell
  | number (bytes value : Nat)
  | heap {kind : HeapKind} (index : HeapIndex kind)
  | row {table : Table} (index : RowIndex table)
  | coded {kind : CodedIndex.Kind} (index : CodedIndex kind)
  deriving DecidableEq

namespace Column

def wide (s : Sizes) : Column → Bool
  | number _ => false
  | heap kind => s.heaps.wide kind
  | row table => 0x10000 ≤ s.rows table
  | coded kind => kind.wide s.rows

def width (s : Sizes) : Column → Nat
  | number bytes => bytes
  | c => if c.wide s then 4 else 2

end Column

namespace Cell

def column : Cell → Column
  | number bytes _ => .number bytes
  | @heap k _ => .heap k
  | @row t _ => .row t
  | @coded k _ => .coded k

/-- The number that a cell stores. -/
def value : Cell → Except EncodingError Nat
  | number _ v => .ok v
  | heap i => .ok i.offset
  | row i => .ok i.number
  | coded i => i.encode

def encode (s : Sizes) (c : Cell) : Field := c.value.map (Bytes.le (c.column.width s))

def byte (v : UInt8) : Cell := number 1 v.toNat

def half (v : UInt16) : Cell := number 2 v.toNat

def word (v : UInt32) : Cell := number 4 v.toNat

def byte? : Cell → Option UInt8
  | number 1 v => some (.ofNat v)
  | _ => none

def half? : Cell → Option UInt16
  | number 2 v => some (.ofNat v)
  | _ => none

def word? : Cell → Option UInt32
  | number 4 v => some (.ofNat v)
  | _ => none

def heap? (kind : HeapKind) : Cell → Option (HeapIndex kind)
  | @heap k i => if h : k = kind then some (h ▸ i) else none
  | _ => none

def row? (table : Table) : Cell → Option (RowIndex table)
  | @row t i => if h : t = table then some (h ▸ i) else none
  | _ => none

def coded? (kind : CodedIndex.Kind) : Cell → Option (CodedIndex kind)
  | @coded k i => if h : k = kind then some (h ▸ i) else none
  | _ => none

@[simp] theorem byte?_byte (v : UInt8) : (byte v).byte? = some v := by simp [byte, byte?]

@[simp] theorem half?_half (v : UInt16) : (half v).half? = some v := by simp [half, half?]

@[simp] theorem word?_word (v : UInt32) : (word v).word? = some v := by simp [word, word?]

@[simp] theorem heap?_heap {kind : HeapKind} (i : HeapIndex kind) :
    (heap i).heap? kind = some i := by simp [heap?]

@[simp] theorem row?_row {table : Table} (i : RowIndex table) :
    (row i).row? table = some i := by simp [row?]

@[simp] theorem coded?_coded {kind : CodedIndex.Kind} (i : CodedIndex kind) :
    (coded i).coded? kind = some i := by simp [coded?]

end Cell
end Cil
