import Cil.Data
import Cil.Heap.Blobs
import Cil.Heap.Strings
import Cil.Heap.UserStrings
import Cil.Metadata.Root
import Cil.Metadata.TableStream
import Cil.Token

/-!
Images: the finished tables, heaps and data of a module. The addresses of method bodies and initial
values are filled in when the metadata is written for a placement of its buffers.
-/

namespace Cil

structure Image where
  tables : Tables
  strings : StringHeap
  blobs : BlobHeap
  guids : Array UInt8
  userStrings : UserStringHeap
  /-- Encoded methods, each at a multiple of four bytes. -/
  bodies : Array UInt8
  /-- Where the body of each method stands: its start and its end. -/
  bodyRanges : Array (Option (Nat × Nat))
  staticData : StaticData
  /-- Where the data of each row of initial values stands. -/
  fieldData : Array (DataSection × Nat)
  resources : Resources
  /-- The token of the entry point, or 0. -/
  entryPoint : Nat
  metadataVersion : String
  strongName : Bool

/-- Where the buffers of an image are loaded. -/
structure Placement where
  bodies : UInt32 := 0
  text : UInt32 := 0
  sdata : UInt32 := 0
  tls : UInt32 := 0

def Placement.data (p : Placement) : DataSection → UInt32
  | .sdata => p.sdata
  | .tls => p.tls
  | .text => p.text

namespace Image

/-- The encoded method of a row. -/
def methodBody? (image : Image) (row : Nat) : Option Bytes :=
  match row with
  | 0 => none
  | i + 1 =>
    (image.bodyRanges[i]?).join.map fun (start, stop) =>
      (image.bodies.extract start stop).toList

def methodRva (p : Placement) : Option (Nat × Nat) → UInt32
  | some (start, _) => p.bodies + .ofNat start
  | none => 0

/-- Rows changed by what stands beside each; those that have nothing beside them stay. -/
def zipRows {α β : Type} (f : α → β → α) (rows : Array α) (beside : Array β) : Array α :=
  rows.mapIdx fun i row => (beside[i]?).elim row (f row)

/-- The tables with the addresses of a placement. -/
def placedTables (image : Image) (p : Placement) : Tables :=
  { image.tables with
    methodDef := zipRows (fun row range => { row with rva := methodRva p range })
      image.tables.methodDef image.bodyRanges
    fieldRva := zipRows (fun row (place, offset) => { row with rva := p.data place + .ofNat offset })
      image.tables.fieldRva image.fieldData }

def heapSizes (image : Image) : HeapSizes :=
  .ofLengths image.strings.size image.guids.size image.blobs.size

/-- The streams by name; heaps of user strings and GUIDs are left out if they are empty. -/
def streams (image : Image) (tableStream : Bytes) : List (String × Bytes) :=
  [("#~", tableStream), ("#Strings", image.strings.bytes.toList)] ++
    (if 1 < image.userStrings.size then [("#US", image.userStrings.bytes.toList)] else []) ++
    (if image.guids.isEmpty then [] else [("#GUID", image.guids.toList)]) ++
    [("#Blob", image.blobs.bytes.toList)]

/-- The headers of streams that follow one another from an offset on. -/
def streamHeaders (offset : Nat) : List (String × Bytes) → List Metadata.StreamHeader
  | [] => []
  | (name, data) :: rest =>
    let size := Bytes.roundUp 4 data.length
    ⟨.ofNat offset, .ofNat size, name⟩ :: streamHeaders (offset + size) rest

/-- The metadata for a placement. -/
def metadataAt (image : Image) (p : Placement) : Except EncodingError Bytes := do
  let tableStream ← TableStream.encode image.heapSizes (image.placedTables p)
  let streams := image.streams tableStream
  let size := Metadata.Root.encodedSize image.metadataVersion (streams.map (·.1))
  let root : Metadata.Root :=
    { version := image.metadataVersion, streams := streamHeaders size streams }
  return (← Field.fill size root.fields) ++ streams.flatMap fun (_, data) => Bytes.padTo 4 data

/-- The metadata with offsets of bodies and data in the place of addresses. -/
def metadata (image : Image) : Except EncodingError Bytes := image.metadataAt {}

/-- The row that a token names in a table, counted from 0. -/
def tokenRow? (t : Table) (token : Nat) : Option Nat :=
  match Token.decode token with
  | .ok ⟨.table u, index + 1⟩ => if u = t then some index else none
  | _ => none

def string? (image : Image) (i : StringIndex) : Option String :=
  (StringHeap.read image.strings i.offset).toOption

/-- The full name of a defined type. -/
def typeName? (image : Image) (token : Nat) : Option String := do
  let row ← image.tables.typeDef[← tokenRow? .typeDef token]?
  let name ← image.string? row.name
  match image.string? row.typeNamespace with
  | some ns => return if ns.isEmpty then name else ns ++ "." ++ name
  | none => return name

def methodName? (image : Image) (token : Nat) : Option String := do
  let row ← image.tables.methodDef[← tokenRow? .methodDef token]?
  image.string? row.name

/-- The token of the type that declares a method: the last one whose methods start at or before it. -/
def methodParent? (image : Image) (token : Nat) : Option Nat := do
  let row ← tokenRow? .methodDef token
  guard (row < image.tables.methodDef.size)
  let owner ← (image.tables.typeDef.toList.zipIdx 1).reverse.find? fun (t, _) =>
    t.methodList.number != 0 && t.methodList.number ≤ row + 1
  (Token.row .typeDef owner.2).encode.toOption

end Image
end Cil
