import Cil.Assemble.Populate.Row

/-!
Rows of the manifest: the assembly, its resources, files and exported types, and the references that
nothing else has needed yet.
-/

namespace Cil
namespace Populate

variable (src : Source)

/-- The row of a file, which follows from its place. -/
def fileRow (m : Module) (id : FileId) : Except Error Nat :=
  if id.index < m.files.size then .ok (id.index + 1) else .error (.unresolved (.file id))

def assembly (publicKey : Option Bytes) (a : Assembly) : Emit Unit := do
  let key ← Emit.blob? publicKey
  let culture ← Emit.string? a.culture
  let name ← Emit.string a.name
  let _ ← Emit.push .assembly {
    hashAlgorithm := a.hashAlgorithm.code
    major := a.version.major
    minor := a.version.minor
    build := a.version.build
    revision := a.version.revision
    flags := .ofNat (flagMask [
      (publicKey.isSome, 0x1),
      (a.retargetable, 0x100),
      (a.disableJitOptimizer, 0x4000),
      (a.enableJitTracking, 0x8000)])
    publicKey := key
    name, culture }
  security src (.row .assembly 1) a.security
  attach (.row (.row .assembly 1)) a.attributes

def resourcePlace : ResourceData → Emit (UInt32 × CodedIndex .implementation)
  | .embedded data => do
    let offset ← modifyGet fun s =>
      let (offset, resources) := s.resources.append data
      (offset, { s with resources })
    pure (.ofNat offset, .null)
  | .file file offset => do
    pure (offset, .row .file (← Emit.ofExcept (fileRow src.module file)))
  | .assembly a => do pure (0, .row .assemblyRef (← assemblyRef src a))

def resourceRow (r : Resource) (place : UInt32 × CodedIndex .implementation) : Emit Unit := do
  let name ← Emit.string r.name
  let row ← Emit.push .manifestResource
    { offset := place.1, flags := if r.isPublic then 0x1 else 0x2, name, implementation := place.2 }
  attach (.row (.row .manifestResource row)) r.attributes

def resource (r : Resource) : Emit Unit := resourcePlace src r.data >>= resourceRow r

def file (f : File) : Emit Unit := do
  let hashValue ← Emit.blob f.hashValue
  let name ← Emit.string f.name
  let row ← Emit.push .file { flags := if f.hasMetadata then 0x0 else 0x1, name, hashValue }
  attach (.row (.row .file row)) f.attributes

def exportedPlace : TypeImplementation → Emit (UInt32 × CodedIndex .implementation)
  | .file file typeDef => do
    pure (typeDef, .row .file (← Emit.ofExcept (fileRow src.module file)))
  | .forwarder a => do pure (0, .row .assemblyRef (← assemblyRef src a))
  | .nested enclosing =>
    if enclosing.index < src.module.exportedTypes.size then
      pure (0, .row .exportedType (enclosing.index + 1))
    else throw (.unresolved (.exportedType enclosing))

def exportedTypeRow (t : ExportedType) (place : UInt32 × CodedIndex .implementation) :
    Emit Unit := do
  let typeNamespace ← Emit.string? t.typeNamespace
  let name ← Emit.string t.name
  let row ← Emit.push .exportedType {
    flags := .ofNat (flagMask [(t.isPublic, 0x1), (t.forwarder, 0x200000)])
    typeDefId := place.1, name, typeNamespace, implementation := place.2 }
  attach (.row (.row .exportedType row)) t.attributes

def exportedType (t : ExportedType) : Emit Unit :=
  exportedPlace src t.implementation >>= exportedTypeRow t

def manifest (publicKey : Option Bytes) : Emit Unit := do
  src.module.assembly.toList.forM (assembly src publicKey)
  src.module.resources.forM (resource src)
  src.module.files.toList.forM file
  src.module.exportedTypes.toList.forM (exportedType src)

/-- Declared references have rows even if nothing uses them. -/
def references : Emit Unit := do
  src.module.assemblyReferences.toList.zipIdx.forM fun (r, i) => do
    let row ← assemblyRef src ⟨i⟩
    attach (.row (.row .assemblyRef row)) r.attributes
  src.module.moduleReferences.toList.zipIdx.forM fun (r, i) => do
    let row ← moduleRef src ⟨i⟩
    attach (.row (.row .moduleRef row)) r.attributes

end Populate
end Cil
