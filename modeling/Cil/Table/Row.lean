import Cil.Table.Cell

/-!
The rows of the metadata tables. A row is a list of cells, in the order of the columns of its table,
and can be read back from it.
-/

namespace Cil

/-- A type of values of a column. -/
class OfCell (α : Type) where
  ofCell? : Cell → Option α

instance : OfCell UInt8 := ⟨Cell.byte?⟩
instance : OfCell UInt16 := ⟨Cell.half?⟩
instance : OfCell UInt32 := ⟨Cell.word?⟩
instance (kind : HeapKind) : OfCell (HeapIndex kind) := ⟨Cell.heap? kind⟩
instance (table : Table) : OfCell (RowIndex table) := ⟨Cell.row? table⟩
instance (kind : CodedIndex.Kind) : OfCell (CodedIndex kind) := ⟨Cell.coded? kind⟩

/-- A row is made from as many cells as its constructor takes values. -/
class OfCells (φ : Type) (α : outParam Type) where
  build : φ → List Cell → Option α

open OfCells (build)

instance (priority := low) (α : Type) : OfCells α α where
  build r
    | [] => some r
    | _ => none

instance (α φ ρ : Type) [OfCell α] [OfCells φ ρ] : OfCells (α → φ) ρ where
  build make
    | c :: rest => (OfCell.ofCell? c).bind fun v => build (make v) rest
    | [] => none

/-- A type of table rows. -/
class TableRow (α : Type) where
  cells : α → List Cell
  ofCells? : List Cell → Option α
  ofCells?_cells (r : α) : ofCells? (cells r) = some r := by intros; simp [build, OfCell.ofCell?]

namespace Row

structure Module where
  generation : UInt16
  name : StringIndex
  mvid : GuidIndex
  encId : GuidIndex
  encBaseId : GuidIndex
  deriving DecidableEq

instance : TableRow Module where
  cells r := [.half r.generation, .heap r.name, .heap r.mvid, .heap r.encId, .heap r.encBaseId]
  ofCells? := build Module.mk

structure TypeRef where
  resolutionScope : CodedIndex .resolutionScope
  name : StringIndex
  typeNamespace : StringIndex
  deriving DecidableEq

instance : TableRow TypeRef where
  cells r := [.coded r.resolutionScope, .heap r.name, .heap r.typeNamespace]
  ofCells? := build TypeRef.mk

structure TypeDef where
  flags : UInt32
  name : StringIndex
  typeNamespace : StringIndex
  base : CodedIndex .typeDefOrRef
  fieldList : RowIndex .field
  methodList : RowIndex .methodDef
  deriving DecidableEq

instance : TableRow TypeDef where
  cells r := [.word r.flags, .heap r.name, .heap r.typeNamespace, .coded r.base, .row r.fieldList,
    .row r.methodList]
  ofCells? := build TypeDef.mk

structure Field where
  flags : UInt16
  name : StringIndex
  signature : BlobIndex
  deriving DecidableEq

instance : TableRow Field where
  cells r := [.half r.flags, .heap r.name, .heap r.signature]
  ofCells? := build Field.mk

structure MethodDef where
  rva : UInt32
  implFlags : UInt16
  flags : UInt16
  name : StringIndex
  signature : BlobIndex
  paramList : RowIndex .param
  deriving DecidableEq

instance : TableRow MethodDef where
  cells r := [.word r.rva, .half r.implFlags, .half r.flags, .heap r.name, .heap r.signature,
    .row r.paramList]
  ofCells? := build MethodDef.mk

structure Param where
  flags : UInt16
  sequence : UInt16
  name : StringIndex
  deriving DecidableEq

instance : TableRow Param where
  cells r := [.half r.flags, .half r.sequence, .heap r.name]
  ofCells? := build Param.mk

structure InterfaceImpl where
  owner : RowIndex .typeDef
  interface : CodedIndex .typeDefOrRef
  deriving DecidableEq

instance : TableRow InterfaceImpl where
  cells r := [.row r.owner, .coded r.interface]
  ofCells? := build InterfaceImpl.mk

structure MemberRef where
  parent : CodedIndex .memberRefParent
  name : StringIndex
  signature : BlobIndex
  deriving DecidableEq

instance : TableRow MemberRef where
  cells r := [.coded r.parent, .heap r.name, .heap r.signature]
  ofCells? := build MemberRef.mk

structure Constant where
  kind : UInt8
  padding : UInt8
  parent : CodedIndex .hasConstant
  value : BlobIndex
  deriving DecidableEq

instance : TableRow Constant where
  cells r := [.byte r.kind, .byte r.padding, .coded r.parent, .heap r.value]
  ofCells? := build Constant.mk

structure CustomAttribute where
  parent : CodedIndex .hasCustomAttribute
  kind : CodedIndex .customAttributeType
  value : BlobIndex
  deriving DecidableEq

instance : TableRow CustomAttribute where
  cells r := [.coded r.parent, .coded r.kind, .heap r.value]
  ofCells? := build CustomAttribute.mk

structure FieldMarshal where
  parent : CodedIndex .hasFieldMarshal
  nativeType : BlobIndex
  deriving DecidableEq

instance : TableRow FieldMarshal where
  cells r := [.coded r.parent, .heap r.nativeType]
  ofCells? := build FieldMarshal.mk

structure DeclSecurity where
  action : UInt16
  parent : CodedIndex .hasDeclSecurity
  permissionSet : BlobIndex
  deriving DecidableEq

instance : TableRow DeclSecurity where
  cells r := [.half r.action, .coded r.parent, .heap r.permissionSet]
  ofCells? := build DeclSecurity.mk

structure ClassLayout where
  packingSize : UInt16
  classSize : UInt32
  parent : RowIndex .typeDef
  deriving DecidableEq

instance : TableRow ClassLayout where
  cells r := [.half r.packingSize, .word r.classSize, .row r.parent]
  ofCells? := build ClassLayout.mk

structure FieldLayout where
  offset : UInt32
  field : RowIndex .field
  deriving DecidableEq

instance : TableRow FieldLayout where
  cells r := [.word r.offset, .row r.field]
  ofCells? := build FieldLayout.mk

structure StandAloneSig where
  signature : BlobIndex
  deriving DecidableEq

instance : TableRow StandAloneSig where
  cells r := [.heap r.signature]
  ofCells? := build StandAloneSig.mk

structure EventMap where
  parent : RowIndex .typeDef
  eventList : RowIndex .event
  deriving DecidableEq

instance : TableRow EventMap where
  cells r := [.row r.parent, .row r.eventList]
  ofCells? := build EventMap.mk

structure Event where
  flags : UInt16
  name : StringIndex
  kind : CodedIndex .typeDefOrRef
  deriving DecidableEq

instance : TableRow Event where
  cells r := [.half r.flags, .heap r.name, .coded r.kind]
  ofCells? := build Event.mk

structure PropertyMap where
  parent : RowIndex .typeDef
  propertyList : RowIndex .property
  deriving DecidableEq

instance : TableRow PropertyMap where
  cells r := [.row r.parent, .row r.propertyList]
  ofCells? := build PropertyMap.mk

structure Property where
  flags : UInt16
  name : StringIndex
  signature : BlobIndex
  deriving DecidableEq

instance : TableRow Property where
  cells r := [.half r.flags, .heap r.name, .heap r.signature]
  ofCells? := build Property.mk

structure MethodSemantics where
  semantics : UInt16
  method : RowIndex .methodDef
  association : CodedIndex .hasSemantics
  deriving DecidableEq

instance : TableRow MethodSemantics where
  cells r := [.half r.semantics, .row r.method, .coded r.association]
  ofCells? := build MethodSemantics.mk

structure MethodImpl where
  owner : RowIndex .typeDef
  body : CodedIndex .methodDefOrRef
  declaration : CodedIndex .methodDefOrRef
  deriving DecidableEq

instance : TableRow MethodImpl where
  cells r := [.row r.owner, .coded r.body, .coded r.declaration]
  ofCells? := build MethodImpl.mk

structure ModuleRef where
  name : StringIndex
  deriving DecidableEq

instance : TableRow ModuleRef where
  cells r := [.heap r.name]
  ofCells? := build ModuleRef.mk

structure TypeSpec where
  signature : BlobIndex
  deriving DecidableEq

instance : TableRow TypeSpec where
  cells r := [.heap r.signature]
  ofCells? := build TypeSpec.mk

structure ImplMap where
  flags : UInt16
  memberForwarded : CodedIndex .memberForwarded
  importName : StringIndex
  importScope : RowIndex .moduleRef
  deriving DecidableEq

instance : TableRow ImplMap where
  cells r := [.half r.flags, .coded r.memberForwarded, .heap r.importName, .row r.importScope]
  ofCells? := build ImplMap.mk

structure FieldRva where
  rva : UInt32
  field : RowIndex .field
  deriving DecidableEq

instance : TableRow FieldRva where
  cells r := [.word r.rva, .row r.field]
  ofCells? := build FieldRva.mk

structure Assembly where
  hashAlgorithm : UInt32
  major : UInt16
  minor : UInt16
  build : UInt16
  revision : UInt16
  flags : UInt32
  publicKey : BlobIndex
  name : StringIndex
  culture : StringIndex
  deriving DecidableEq

instance : TableRow Assembly where
  cells r := [.word r.hashAlgorithm, .half r.major, .half r.minor, .half r.build,
    .half r.revision, .word r.flags, .heap r.publicKey, .heap r.name, .heap r.culture]
  ofCells? := build Assembly.mk

structure AssemblyRef where
  major : UInt16
  minor : UInt16
  build : UInt16
  revision : UInt16
  flags : UInt32
  publicKeyOrToken : BlobIndex
  name : StringIndex
  culture : StringIndex
  hashValue : BlobIndex
  deriving DecidableEq

instance : TableRow AssemblyRef where
  cells r := [.half r.major, .half r.minor, .half r.build, .half r.revision, .word r.flags,
    .heap r.publicKeyOrToken, .heap r.name, .heap r.culture, .heap r.hashValue]
  ofCells? := build AssemblyRef.mk

structure File where
  flags : UInt32
  name : StringIndex
  hashValue : BlobIndex
  deriving DecidableEq

instance : TableRow File where
  cells r := [.word r.flags, .heap r.name, .heap r.hashValue]
  ofCells? := build File.mk

structure ExportedType where
  flags : UInt32
  typeDefId : UInt32
  name : StringIndex
  typeNamespace : StringIndex
  implementation : CodedIndex .implementation
  deriving DecidableEq

instance : TableRow ExportedType where
  cells r := [.word r.flags, .word r.typeDefId, .heap r.name, .heap r.typeNamespace,
    .coded r.implementation]
  ofCells? := build ExportedType.mk

structure ManifestResource where
  offset : UInt32
  flags : UInt32
  name : StringIndex
  implementation : CodedIndex .implementation
  deriving DecidableEq

instance : TableRow ManifestResource where
  cells r := [.word r.offset, .word r.flags, .heap r.name, .coded r.implementation]
  ofCells? := build ManifestResource.mk

structure NestedClass where
  nested : RowIndex .typeDef
  enclosing : RowIndex .typeDef
  deriving DecidableEq

instance : TableRow NestedClass where
  cells r := [.row r.nested, .row r.enclosing]
  ofCells? := build NestedClass.mk

structure GenericParam where
  number : UInt16
  flags : UInt16
  owner : CodedIndex .typeOrMethodDef
  name : StringIndex
  deriving DecidableEq

instance : TableRow GenericParam where
  cells r := [.half r.number, .half r.flags, .coded r.owner, .heap r.name]
  ofCells? := build GenericParam.mk

structure MethodSpec where
  method : CodedIndex .methodDefOrRef
  instantiation : BlobIndex
  deriving DecidableEq

instance : TableRow MethodSpec where
  cells r := [.coded r.method, .heap r.instantiation]
  ofCells? := build MethodSpec.mk

structure GenericParamConstraint where
  owner : RowIndex .genericParam
  constraint : CodedIndex .typeDefOrRef
  deriving DecidableEq

instance : TableRow GenericParamConstraint where
  cells r := [.row r.owner, .coded r.constraint]
  ofCells? := build GenericParamConstraint.mk

end Row

namespace Table

/-- The columns of a table, in the order of serialisation. -/
def columns : Table → List Column
  | module => [.number 2, .heap .strings, .heap .guids, .heap .guids, .heap .guids]
  | typeRef => [.coded .resolutionScope, .heap .strings, .heap .strings]
  | typeDef => [.number 4, .heap .strings, .heap .strings, .coded .typeDefOrRef, .row .field,
    .row .methodDef]
  | field => [.number 2, .heap .strings, .heap .blobs]
  | methodDef => [.number 4, .number 2, .number 2, .heap .strings, .heap .blobs, .row .param]
  | param => [.number 2, .number 2, .heap .strings]
  | interfaceImpl => [.row .typeDef, .coded .typeDefOrRef]
  | memberRef => [.coded .memberRefParent, .heap .strings, .heap .blobs]
  | constant => [.number 1, .number 1, .coded .hasConstant, .heap .blobs]
  | customAttribute => [.coded .hasCustomAttribute, .coded .customAttributeType, .heap .blobs]
  | fieldMarshal => [.coded .hasFieldMarshal, .heap .blobs]
  | declSecurity => [.number 2, .coded .hasDeclSecurity, .heap .blobs]
  | classLayout => [.number 2, .number 4, .row .typeDef]
  | fieldLayout => [.number 4, .row .field]
  | standAloneSig => [.heap .blobs]
  | eventMap => [.row .typeDef, .row .event]
  | event => [.number 2, .heap .strings, .coded .typeDefOrRef]
  | propertyMap => [.row .typeDef, .row .property]
  | property => [.number 2, .heap .strings, .heap .blobs]
  | methodSemantics => [.number 2, .row .methodDef, .coded .hasSemantics]
  | methodImpl => [.row .typeDef, .coded .methodDefOrRef, .coded .methodDefOrRef]
  | moduleRef => [.heap .strings]
  | typeSpec => [.heap .blobs]
  | implMap => [.number 2, .coded .memberForwarded, .heap .strings, .row .moduleRef]
  | fieldRva => [.number 4, .row .field]
  | assembly => [.number 4, .number 2, .number 2, .number 2, .number 2, .number 4, .heap .blobs,
    .heap .strings, .heap .strings]
  | assemblyRef => [.number 2, .number 2, .number 2, .number 2, .number 4, .heap .blobs,
    .heap .strings, .heap .strings, .heap .blobs]
  | file => [.number 4, .heap .strings, .heap .blobs]
  | exportedType => [.number 4, .number 4, .heap .strings, .heap .strings, .coded .implementation]
  | manifestResource => [.number 4, .number 4, .heap .strings, .coded .implementation]
  | nestedClass => [.row .typeDef, .row .typeDef]
  | genericParam => [.number 2, .number 2, .coded .typeOrMethodDef, .heap .strings]
  | methodSpec => [.coded .methodDefOrRef, .heap .blobs]
  | genericParamConstraint => [.row .genericParam, .coded .typeDefOrRef]

/-- The rows of a table. -/
abbrev Row : Table → Type
  | module => Cil.Row.Module
  | typeRef => Cil.Row.TypeRef
  | typeDef => Cil.Row.TypeDef
  | field => Cil.Row.Field
  | methodDef => Cil.Row.MethodDef
  | param => Cil.Row.Param
  | interfaceImpl => Cil.Row.InterfaceImpl
  | memberRef => Cil.Row.MemberRef
  | constant => Cil.Row.Constant
  | customAttribute => Cil.Row.CustomAttribute
  | fieldMarshal => Cil.Row.FieldMarshal
  | declSecurity => Cil.Row.DeclSecurity
  | classLayout => Cil.Row.ClassLayout
  | fieldLayout => Cil.Row.FieldLayout
  | standAloneSig => Cil.Row.StandAloneSig
  | eventMap => Cil.Row.EventMap
  | event => Cil.Row.Event
  | propertyMap => Cil.Row.PropertyMap
  | property => Cil.Row.Property
  | methodSemantics => Cil.Row.MethodSemantics
  | methodImpl => Cil.Row.MethodImpl
  | moduleRef => Cil.Row.ModuleRef
  | typeSpec => Cil.Row.TypeSpec
  | implMap => Cil.Row.ImplMap
  | fieldRva => Cil.Row.FieldRva
  | assembly => Cil.Row.Assembly
  | assemblyRef => Cil.Row.AssemblyRef
  | file => Cil.Row.File
  | exportedType => Cil.Row.ExportedType
  | manifestResource => Cil.Row.ManifestResource
  | nestedClass => Cil.Row.NestedClass
  | genericParam => Cil.Row.GenericParam
  | methodSpec => Cil.Row.MethodSpec
  | genericParamConstraint => Cil.Row.GenericParamConstraint

instance (t : Table) : TableRow t.Row := by cases t <;> infer_instance

instance (t : Table) : DecidableEq t.Row := by cases t <;> infer_instance

end Table
end Cil
