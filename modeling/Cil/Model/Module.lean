import Cil.Heap.Guids
import Cil.Model.TypeInfo

/-!
Modules: what one file of an assembly defines and refers to. The first type holds the global members.
-/

namespace Cil

structure Version where
  major : UInt16 := 0
  minor : UInt16 := 0
  build : UInt16 := 0
  revision : UInt16 := 0
  deriving DecidableEq

inductive HashAlgorithm | none | md5 | sha1
  deriving DecidableEq

def HashAlgorithm.code : HashAlgorithm → UInt32
  | none => 0x0000
  | md5 => 0x8003
  | sha1 => 0x8004

/-- The identity of an assembly, carried by its main module. -/
structure Assembly where
  name : String
  version : Version := {}
  culture : Option String := none
  publicKey : Option Bytes := none
  hashAlgorithm : HashAlgorithm := .sha1
  retargetable : Bool := false
  disableJitOptimizer : Bool := false
  enableJitTracking : Bool := false
  attributes : List Attribute := []
  security : List SecurityDeclaration := []

structure AssemblyReference where
  name : String
  version : Version := {}
  culture : Option String := none
  hasFullPublicKey : Bool := false
  publicKeyOrToken : Option Bytes := none
  retargetable : Bool := false
  hashValue : Option Bytes := none
  attributes : List Attribute := []

structure ModuleReference where
  name : String
  attributes : List Attribute := []

/-- Another file of the assembly. -/
structure File where
  name : String
  hasMetadata : Bool := false
  hashValue : Bytes := []
  attributes : List Attribute := []

inductive ResourceData
  | embedded (data : Bytes)
  | file (file : FileId) (offset : UInt32)
  | assembly (reference : AssemblyRefId)

structure Resource where
  name : String
  isPublic : Bool := false
  data : ResourceData
  attributes : List Attribute := []

inductive TypeImplementation
  /-- In another module of the assembly, in the given row. -/
  | file (file : FileId) (typeDef : UInt32)
  | forwarder (reference : AssemblyRefId)
  | nested (enclosing : ExportedTypeId)

structure ExportedType where
  name : String
  typeNamespace : Option String := none
  isPublic : Bool := false
  forwarder : Bool := false
  implementation : TypeImplementation
  attributes : List Attribute := []

inductive EntryPoint
  | method (method : MethodId)
  | file (file : FileId)

/-- A source text that sequence points refer to. -/
structure Document where
  url : String
  language : Guid := Guid.zero
  vendor : Guid := Guid.zero
  documentType : Guid := Guid.zero

/-- The type that holds the global members. -/
def TypeInfo.globals : TypeInfo := { name := "<Module>" }

structure Module where
  name : String
  mvid : Guid := Guid.zero
  assembly : Option Assembly := none
  attributes : List Attribute := []
  types : Array TypeInfo := #[.globals]
  assemblyReferences : Array AssemblyReference := #[]
  moduleReferences : Array ModuleReference := #[]
  files : Array File := #[]
  resources : List Resource := []
  exportedTypes : Array ExportedType := #[]
  documents : Array Document := #[]
  entryPoint : Option EntryPoint := none
  /-- The modifier of the types of volatile fields. -/
  isVolatile : Option TypeId := none
  /-- The assembly that defines the primitive types. -/
  coreLibrary : Option AssemblyRefId := none

namespace Module

def type? (m : Module) (id : TypeId) : Option TypeInfo := m.types[id.index]?

def pushType (m : Module) (t : TypeInfo) : TypeId × Module :=
  (⟨m.types.size⟩, { m with types := m.types.push t })

def pushNestedType (m : Module) (declaringType : TypeId) (t : TypeInfo) : TypeId × Module :=
  m.pushType { t with declaringType := some declaringType }

def pushAssemblyReference (m : Module) (r : AssemblyReference) : AssemblyRefId × Module :=
  (⟨m.assemblyReferences.size⟩, { m with assemblyReferences := m.assemblyReferences.push r })

def pushModuleReference (m : Module) (name : String) : ModuleRefId × Module :=
  (⟨m.moduleReferences.size⟩, { m with moduleReferences := m.moduleReferences.push { name } })

def pushFile (m : Module) (f : File) : FileId × Module :=
  (⟨m.files.size⟩, { m with files := m.files.push f })

def pushExportedType (m : Module) (t : ExportedType) : ExportedTypeId × Module :=
  (⟨m.exportedTypes.size⟩, { m with exportedTypes := m.exportedTypes.push t })

def pushDocument (m : Module) (d : Document) : DocumentId × Module :=
  (⟨m.documents.size⟩, { m with documents := m.documents.push d })

/-- Changes a type of the module, if it is there. -/
def modifyType (m : Module) (id : TypeId) (f : TypeInfo → TypeInfo) : Module :=
  { m with types := m.types.modify id.index f }

/-- The number of members of some sort that a type has. -/
def memberCount (m : Module) (id : TypeId) (size : TypeInfo → Nat) : Nat :=
  ((m.type? id).map size).getD 0

def pushField (m : Module) (parent : TypeId) (f : FieldDef) : FieldId × Module :=
  (⟨parent, m.memberCount parent (·.fields.size)⟩,
    m.modifyType parent fun t => { t with fields := t.fields.push f })

def pushMethod (m : Module) (parent : TypeId) (f : Method) : MethodId × Module :=
  (⟨parent, m.memberCount parent (·.methods.size)⟩,
    m.modifyType parent fun t => { t with methods := t.methods.push f })

def pushProperty (m : Module) (parent : TypeId) (p : Property) : PropertyId × Module :=
  (⟨parent, m.memberCount parent (·.properties.size)⟩,
    m.modifyType parent fun t => { t with properties := t.properties.push p })

def pushEvent (m : Module) (parent : TypeId) (e : Event) : EventId × Module :=
  (⟨parent, m.memberCount parent (·.events.size)⟩,
    m.modifyType parent fun t => { t with events := t.events.push e })

end Module
end Cil
