import Cil.Assemble.Session

/-!
Rows of references to assemblies, modules and types. A reference gets a row when it is first needed
and keeps it.
-/

namespace Cil

/-- What is referred to by its place in the module or by its name in the core library. -/
inductive Referent
  | assembly (id : AssemblyRefId)
  | module (id : ModuleRefId)
  | type (id : TypeId)
  | primitive (p : Primitive)
  deriving DecidableEq

namespace Referent

@[reducible] def table : Referent → Table
  | assembly _ => .assemblyRef
  | module _ => .moduleRef
  | type _ | primitive _ => .typeRef

def row? (s : Session) : Referent → Option Nat
  | assembly id => s.assemblyRefs.row? id.index
  | module id => s.moduleRefs.row? id.index
  | type id => s.typeRefs.row? id.index
  | primitive p => s.primitiveRefs.lookup p

def note (row : Nat) (s : Session) : Referent → Session
  | assembly id => { s with assemblyRefs := s.assemblyRefs.insert id.index row }
  | module id => { s with moduleRefs := s.moduleRefs.insert id.index row }
  | type id => { s with typeRefs := s.typeRefs.insert id.index row }
  | primitive p => { s with primitiveRefs := (p, row) :: s.primitiveRefs }

end Referent

namespace Emit

def remember (x : Referent) (row : x.table.Row) : Emit Nat := do
  let n ← push x.table row
  modify fun s => x.note n s
  return n

/-- The row of what is referred to, which is made the first time. -/
def remembered (x : Referent) (make : Emit x.table.Row) : Emit Nat := do
  match x.row? (← get) with
  | some n => return n
  | none => make >>= remember x

end Emit

variable (src : Source)

def assemblyRefRow (id : AssemblyRefId) : Emit Row.AssemblyRef := do
  let some r := src.module.assemblyReferences[id.index]?
    | throw (.unresolved (.assemblyReference id))
  let publicKeyOrToken ← Emit.blob? r.publicKeyOrToken
  let hashValue ← Emit.blob? r.hashValue
  let culture ← Emit.string? r.culture
  let name ← Emit.string r.name
  return {
    major := r.version.major
    minor := r.version.minor
    build := r.version.build
    revision := r.version.revision
    flags := .ofNat (flagMask [(r.hasFullPublicKey, 0x1), (r.retargetable, 0x100)])
    publicKeyOrToken, name, culture, hashValue }

def assemblyRef (id : AssemblyRefId) : Emit Nat := .remembered (.assembly id) (assemblyRefRow src id)

def moduleRefRow (id : ModuleRefId) : Emit Row.ModuleRef := do
  let some r := src.module.moduleReferences[id.index]?
    | throw (.unresolved (.moduleReference id))
  return { name := ← Emit.string r.name }

def moduleRef (id : ModuleRefId) : Emit Nat := .remembered (.module id) (moduleRefRow src id)

/-- The scope of an external type; `within` gives the row of the type around it. -/
def typeScope (within : TypeId → Emit Nat) (t : TypeInfo) : Emit (CodedIndex .resolutionScope) := do
  match t.scope, t.declaringType with
  | .unresolved, _ => throw (.unresolved (.scope t.fullName))
  | .defined, _ => throw (.violation (.definedType t.fullName))
  | _, some declaring =>
    if (← Emit.ofExcept (src.module.typeInfo declaring)).isDefined then
      throw (.violation (.nestedInDefined t.fullName))
    else
      return .row .typeRef (← within declaring)
  | .assembly a, none => return .row .assemblyRef (← assemblyRef src a)
  | .module m, none => return .row .moduleRef (← moduleRef src m)

def typeRefRow (within : TypeId → Emit Nat) (id : TypeId) : Emit Row.TypeRef := do
  let t ← Emit.ofExcept (src.module.typeInfo id)
  let resolutionScope ← typeScope src within t
  let typeNamespace ← Emit.string? t.typeNamespace
  let name ← Emit.string t.name
  return { resolutionScope, name, typeNamespace }

/-- The row of an external type behind at most `fuel` enclosing types. The scope of a nested type is
the row of the type around it. -/
def typeRefWithin : (fuel : Nat) → TypeId → Emit Nat
  | 0, id => do throw (.violation (.cyclicNesting (← Emit.ofExcept (src.module.typeInfo id)).fullName))
  | fuel + 1, id => .remembered (.type id) (typeRefRow src (typeRefWithin fuel) id)

def typeRef (id : TypeId) : Emit Nat := typeRefWithin src (src.module.types.size + 1) id

/-- The row of a type, whether it is defined or referred to. -/
def namedType (id : TypeId) : Emit TypeDefOrRef := do
  if (← Emit.ofExcept (src.module.typeInfo id)).isDefined then
    return .row .typeDef (← Emit.ofExcept (src.numbering.typeRow id))
  else
    return .row .typeRef (← typeRef src id)

/-- The type of the module that is a primitive type by its name. -/
def ownPrimitive? (m : Module) (p : Primitive) : Option TypeId :=
  (m.types.findIdx? fun t =>
    t.declaringType.isNone && t.typeNamespace == some "System" && t.name == p.systemName).map (⟨·⟩)

def primitiveRefRow (p : Primitive) : Emit Row.TypeRef := do
  let some library := src.module.coreLibrary | throw (.unresolved (.coreLibrary p))
  let scope ← assemblyRef src library
  let name ← Emit.string p.systemName
  let typeNamespace ← Emit.string "System"
  return { resolutionScope := .row .assemblyRef scope, name, typeNamespace }

/-- The row of a primitive type: the one that the module has itself, or else a reference to the core
library. -/
def primitiveType (p : Primitive) : Emit TypeDefOrRef := do
  match ownPrimitive? src.module p with
  | some id => namedType src id
  | none => return .row .typeRef (← Emit.remembered (.primitive p) (primitiveRefRow src p))

end Cil
