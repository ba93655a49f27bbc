import Cil.Assemble.Numbering
import Cil.Assemble.SpecIndex
import Cil.Heap.Strings
import Cil.Heap.UserStrings

/-!
The state of one write: the tables and heaps so far, and the rows that references have been given.
A write reads its module and the rows of its definitions, and stops at the first error.
-/

namespace Cil

/-- Rows by the place of what they stand for. -/
abbrev RowMap := Array (Option Nat)

namespace RowMap

def ofSize (size : Nat) : RowMap := Array.replicate size none

def row? (rows : RowMap) (index : Nat) : Option Nat := (rows[index]?).join

def insert (rows : RowMap) (index row : Nat) : RowMap := rows.setIfInBounds index (some row)

end RowMap

/-- What a custom attribute belongs to. Rows of sorted tables move while others are inserted, so that
their attributes wait with the key of the row. -/
inductive Owner
  | row (parent : CodedIndex .hasCustomAttribute)
  | interface (owner : Nat) (interface : TypeDefOrRef)
  | genericParam (owner : CodedIndex .typeOrMethodDef) (number : UInt16)
  | constraint (owner : CodedIndex .typeOrMethodDef) (number : UInt16) (constraint : TypeDefOrRef)

structure Session where
  tables : Tables := {}
  strings : StringHeap := {}
  blobWriter : BlobWriter := {}
  guids : GuidHeap := {}
  userStringWriter : UserStringWriter := {}
  assemblyRefs : RowMap
  moduleRefs : RowMap
  typeRefs : RowMap
  /-- The references to primitive types of the core library. -/
  primitiveRefs : List (Primitive × Nat) := []
  specs : SpecIndex := {}
  /-- The attributes that wait until all their owners have rows. -/
  attributes : Array (Owner × Attribute) := #[]
  staticData : StaticData := {}
  /-- Where the data of each row of initial values stands. -/
  fieldData : Array (DataSection × Nat) := #[]
  resources : Resources := {}

namespace Session

def ofModule (m : Module) (search : SpecSearch := .keyed .fnv) : Session where
  assemblyRefs := .ofSize m.assemblyReferences.size
  moduleRefs := .ofSize m.moduleReferences.size
  typeRefs := .ofSize m.types.size
  specs := { search }

def blobs (s : Session) : BlobHeap := s.blobWriter.heap

def userStrings (s : Session) : UserStringHeap := s.userStringWriter.heap

/-- The row of a spec, counted from 0. What a row is for is told by `same` and by the row itself. -/
def findSpec? (s : Session) (t : Table) (key : SpecKeys → UInt64) (same : t.Row → Bool)
    (row : t.Row) : Option Nat :=
  match s.specs.search with
  | .listed => (s.tables.rows t).findIdx? same
  | .keyed keys => s.specs.find? t (key keys) fun i => (s.tables.rows t)[i]? == some row

end Session

/-- What a write reads. -/
structure Source where
  module : Module
  numbering : Numbering

abbrev Emit := ExceptT Error (StateM Session)

namespace Emit

def ofExcept {α : Type} (r : Except Error α) : Emit α := ExceptT.mk (pure r)

def ofEncoding {α : Type} (r : Except EncodingError α) : Emit α :=
  ofExcept (r.mapError .encoding)

def string (text : String) : Emit StringIndex :=
  modifyGet fun s =>
    let (offset, strings) := StringHeap.write s.strings text
    (⟨offset⟩, { s with strings })

/-- The offset of a text; an absent one has the offset of the empty text. -/
def string? : Option String → Emit StringIndex
  | some text => string text
  | none => pure {}

/-- Writes an entry to a heap of the session, which is kept also if that fails. -/
def entry {α : Type} (index : Nat → α) (write : Session → Except EncodingError Nat × Session) :
    Emit α := do
  ofEncoding ((← modifyGet write).map index)

/-- The offset of a blob. A blob whose length has more than 32 bits is refused before it is written. -/
def blob (bytes : Bytes) : Emit BlobIndex := do
  let _ ← ofEncoding (Compressed.unsigned bytes.length)
  entry HeapIndex.mk fun s =>
    let (result, blobWriter) := s.blobWriter.write bytes
    (result, { s with blobWriter })

def blob? : Option Bytes → Emit BlobIndex
  | some bytes => blob bytes
  | none => pure {}

def guid (g : Guid) : Emit GuidIndex :=
  modifyGet fun s =>
    let (index, guids) := s.guids.write g
    (⟨index⟩, { s with guids })

/-- The offset of a literal, which is refused like a blob if it is too long. -/
def userString (text : String) : Emit Nat := do
  let _ ← ofEncoding (Compressed.unsigned (UserStringHeap.length text))
  entry id fun s =>
    let (result, userStringWriter) := s.userStringWriter.write text
    (result, { s with userStringWriter })

/-- Appends a row to a table and gives its number. -/
def push (t : Table) (row : t.Row) : Emit Nat :=
  modifyGet fun s =>
    let tables := s.tables.push t row
    (tables.count t, { s with tables })

/-- The number of the first such row of a table; it is appended if there is none. -/
def intern (t : Table) (row : t.Row) : Emit Nat := do
  match ((← get).tables.rows t).findIdx? (· == row) with
  | some i => return i + 1
  | none => push t row

/-- The number of the row of a spec, which is appended and kept under its hash unless it is there. -/
def internSpec (t : Table) (key : SpecKeys → UInt64) (same : Session → t.Row → Bool)
    (row : t.Row) : Emit Nat := do
  let s ← get
  match s.findSpec? t key (same s) row with
  | some i => return i + 1
  | none =>
    let number ← push t row
    modify fun s => { s with specs := s.specs.add t key (number - 1) }
    return number

/-- Inserts a row into a sorted table and gives its place, counted from 0. -/
def insert (t : Table) [SortedRow t.Row] (row : t.Row) : Emit Nat :=
  modifyGet fun s =>
    let position := SortedRow.position (s.tables.rows t) row
    (position, { s with tables := s.tables.modify t (SortedRow.insert · row) })

end Emit
end Cil
