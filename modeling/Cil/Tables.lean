import Cil.Table.Sorted

/-!
The tables of a module.
-/

namespace Cil

structure Tables where
  module : Array Row.Module := #[]
  typeRef : Array Row.TypeRef := #[]
  typeDef : Array Row.TypeDef := #[]
  field : Array Row.Field := #[]
  methodDef : Array Row.MethodDef := #[]
  param : Array Row.Param := #[]
  interfaceImpl : Array Row.InterfaceImpl := #[]
  memberRef : Array Row.MemberRef := #[]
  constant : Array Row.Constant := #[]
  customAttribute : Array Row.CustomAttribute := #[]
  fieldMarshal : Array Row.FieldMarshal := #[]
  declSecurity : Array Row.DeclSecurity := #[]
  classLayout : Array Row.ClassLayout := #[]
  fieldLayout : Array Row.FieldLayout := #[]
  standAloneSig : Array Row.StandAloneSig := #[]
  eventMap : Array Row.EventMap := #[]
  event : Array Row.Event := #[]
  propertyMap : Array Row.PropertyMap := #[]
  property : Array Row.Property := #[]
  methodSemantics : Array Row.MethodSemantics := #[]
  methodImpl : Array Row.MethodImpl := #[]
  moduleRef : Array Row.ModuleRef := #[]
  typeSpec : Array Row.TypeSpec := #[]
  implMap : Array Row.ImplMap := #[]
  fieldRva : Array Row.FieldRva := #[]
  assembly : Array Row.Assembly := #[]
  assemblyRef : Array Row.AssemblyRef := #[]
  file : Array Row.File := #[]
  exportedType : Array Row.ExportedType := #[]
  manifestResource : Array Row.ManifestResource := #[]
  nestedClass : Array Row.NestedClass := #[]
  genericParam : Array Row.GenericParam := #[]
  methodSpec : Array Row.MethodSpec := #[]
  genericParamConstraint : Array Row.GenericParamConstraint := #[]

namespace Tables

/-- The rows of a table. -/
def rows (ts : Tables) : (t : Table) → Array t.Row
  | .module => ts.module
  | .typeRef => ts.typeRef
  | .typeDef => ts.typeDef
  | .field => ts.field
  | .methodDef => ts.methodDef
  | .param => ts.param
  | .interfaceImpl => ts.interfaceImpl
  | .memberRef => ts.memberRef
  | .constant => ts.constant
  | .customAttribute => ts.customAttribute
  | .fieldMarshal => ts.fieldMarshal
  | .declSecurity => ts.declSecurity
  | .classLayout => ts.classLayout
  | .fieldLayout => ts.fieldLayout
  | .standAloneSig => ts.standAloneSig
  | .eventMap => ts.eventMap
  | .event => ts.event
  | .propertyMap => ts.propertyMap
  | .property => ts.property
  | .methodSemantics => ts.methodSemantics
  | .methodImpl => ts.methodImpl
  | .moduleRef => ts.moduleRef
  | .typeSpec => ts.typeSpec
  | .implMap => ts.implMap
  | .fieldRva => ts.fieldRva
  | .assembly => ts.assembly
  | .assemblyRef => ts.assemblyRef
  | .file => ts.file
  | .exportedType => ts.exportedType
  | .manifestResource => ts.manifestResource
  | .nestedClass => ts.nestedClass
  | .genericParam => ts.genericParam
  | .methodSpec => ts.methodSpec
  | .genericParamConstraint => ts.genericParamConstraint

def ofRows (rows : (t : Table) → Array t.Row) : Tables where
  module := rows .module
  typeRef := rows .typeRef
  typeDef := rows .typeDef
  field := rows .field
  methodDef := rows .methodDef
  param := rows .param
  interfaceImpl := rows .interfaceImpl
  memberRef := rows .memberRef
  constant := rows .constant
  customAttribute := rows .customAttribute
  fieldMarshal := rows .fieldMarshal
  declSecurity := rows .declSecurity
  classLayout := rows .classLayout
  fieldLayout := rows .fieldLayout
  standAloneSig := rows .standAloneSig
  eventMap := rows .eventMap
  event := rows .event
  propertyMap := rows .propertyMap
  property := rows .property
  methodSemantics := rows .methodSemantics
  methodImpl := rows .methodImpl
  moduleRef := rows .moduleRef
  typeSpec := rows .typeSpec
  implMap := rows .implMap
  fieldRva := rows .fieldRva
  assembly := rows .assembly
  assemblyRef := rows .assemblyRef
  file := rows .file
  exportedType := rows .exportedType
  manifestResource := rows .manifestResource
  nestedClass := rows .nestedClass
  genericParam := rows .genericParam
  methodSpec := rows .methodSpec
  genericParamConstraint := rows .genericParamConstraint

theorem rows_ofRows (rows : (t : Table) → Array t.Row) (t : Table) :
    (ofRows rows).rows t = rows t := by
  cases t <;> rfl

/-- Changes the rows of one table. -/
def modify (ts : Tables) : (t : Table) → (Array t.Row → Array t.Row) → Tables
  | .module, f => { ts with module := f ts.module }
  | .typeRef, f => { ts with typeRef := f ts.typeRef }
  | .typeDef, f => { ts with typeDef := f ts.typeDef }
  | .field, f => { ts with field := f ts.field }
  | .methodDef, f => { ts with methodDef := f ts.methodDef }
  | .param, f => { ts with param := f ts.param }
  | .interfaceImpl, f => { ts with interfaceImpl := f ts.interfaceImpl }
  | .memberRef, f => { ts with memberRef := f ts.memberRef }
  | .constant, f => { ts with constant := f ts.constant }
  | .customAttribute, f => { ts with customAttribute := f ts.customAttribute }
  | .fieldMarshal, f => { ts with fieldMarshal := f ts.fieldMarshal }
  | .declSecurity, f => { ts with declSecurity := f ts.declSecurity }
  | .classLayout, f => { ts with classLayout := f ts.classLayout }
  | .fieldLayout, f => { ts with fieldLayout := f ts.fieldLayout }
  | .standAloneSig, f => { ts with standAloneSig := f ts.standAloneSig }
  | .eventMap, f => { ts with eventMap := f ts.eventMap }
  | .event, f => { ts with event := f ts.event }
  | .propertyMap, f => { ts with propertyMap := f ts.propertyMap }
  | .property, f => { ts with property := f ts.property }
  | .methodSemantics, f => { ts with methodSemantics := f ts.methodSemantics }
  | .methodImpl, f => { ts with methodImpl := f ts.methodImpl }
  | .moduleRef, f => { ts with moduleRef := f ts.moduleRef }
  | .typeSpec, f => { ts with typeSpec := f ts.typeSpec }
  | .implMap, f => { ts with implMap := f ts.implMap }
  | .fieldRva, f => { ts with fieldRva := f ts.fieldRva }
  | .assembly, f => { ts with assembly := f ts.assembly }
  | .assemblyRef, f => { ts with assemblyRef := f ts.assemblyRef }
  | .file, f => { ts with file := f ts.file }
  | .exportedType, f => { ts with exportedType := f ts.exportedType }
  | .manifestResource, f => { ts with manifestResource := f ts.manifestResource }
  | .nestedClass, f => { ts with nestedClass := f ts.nestedClass }
  | .genericParam, f => { ts with genericParam := f ts.genericParam }
  | .methodSpec, f => { ts with methodSpec := f ts.methodSpec }
  | .genericParamConstraint, f => { ts with genericParamConstraint := f ts.genericParamConstraint }

theorem rows_modify_self (ts : Tables) (t : Table) (f : Array t.Row → Array t.Row) :
    (ts.modify t f).rows t = f (ts.rows t) := by
  cases t <;> rfl

theorem rows_modify_of_ne (ts : Tables) {t u : Table} (f : Array t.Row → Array t.Row)
    (h : u ≠ t) : (ts.modify t f).rows u = ts.rows u := by
  cases t <;> cases u <;> first | rfl | exact absurd rfl h

def push (ts : Tables) (t : Table) (row : t.Row) : Tables := ts.modify t (·.push row)

/-- The number of rows of a table. -/
def count (ts : Tables) (t : Table) : Nat := (ts.rows t).size

/-- The tables that have rows, in the order of serialisation, each with their number. -/
def summary (ts : Tables) : List (Table × Nat) :=
  (Table.all.map fun t => (t, ts.count t)).filter (·.2 != 0)

end Tables
end Cil
