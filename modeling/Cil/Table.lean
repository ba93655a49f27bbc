/-!
The metadata tables. A table's number is its bit in the masks of the table stream, the top byte
of a token to one of its rows, and its place in the order of serialisation.
-/

namespace Cil

inductive Table
  | module | typeRef | typeDef | field | methodDef | param | interfaceImpl | memberRef | constant
  | customAttribute | fieldMarshal | declSecurity | classLayout | fieldLayout | standAloneSig
  | eventMap | event | propertyMap | property | methodSemantics | methodImpl | moduleRef
  | typeSpec | implMap | fieldRva | assembly | assemblyRef | file | exportedType
  | manifestResource | nestedClass | genericParam | methodSpec | genericParamConstraint
  deriving DecidableEq, Inhabited

namespace Table

def number : Table → Nat
  | module => 0x00
  | typeRef => 0x01
  | typeDef => 0x02
  | field => 0x04
  | methodDef => 0x06
  | param => 0x08
  | interfaceImpl => 0x09
  | memberRef => 0x0A
  | constant => 0x0B
  | customAttribute => 0x0C
  | fieldMarshal => 0x0D
  | declSecurity => 0x0E
  | classLayout => 0x0F
  | fieldLayout => 0x10
  | standAloneSig => 0x11
  | eventMap => 0x12
  | event => 0x14
  | propertyMap => 0x15
  | property => 0x17
  | methodSemantics => 0x18
  | methodImpl => 0x19
  | moduleRef => 0x1A
  | typeSpec => 0x1B
  | implMap => 0x1C
  | fieldRva => 0x1D
  | assembly => 0x20
  | assemblyRef => 0x23
  | file => 0x26
  | exportedType => 0x27
  | manifestResource => 0x28
  | nestedClass => 0x29
  | genericParam => 0x2A
  | methodSpec => 0x2B
  | genericParamConstraint => 0x2C

def name : Table → String
  | module => "Module"
  | typeRef => "TypeRef"
  | typeDef => "TypeDef"
  | field => "Field"
  | methodDef => "MethodDef"
  | param => "Param"
  | interfaceImpl => "InterfaceImpl"
  | memberRef => "MemberRef"
  | constant => "Constant"
  | customAttribute => "CustomAttribute"
  | fieldMarshal => "FieldMarshal"
  | declSecurity => "DeclSecurity"
  | classLayout => "ClassLayout"
  | fieldLayout => "FieldLayout"
  | standAloneSig => "StandAloneSig"
  | eventMap => "EventMap"
  | event => "Event"
  | propertyMap => "PropertyMap"
  | property => "Property"
  | methodSemantics => "MethodSemantics"
  | methodImpl => "MethodImpl"
  | moduleRef => "ModuleRef"
  | typeSpec => "TypeSpec"
  | implMap => "ImplMap"
  | fieldRva => "FieldRVA"
  | assembly => "Assembly"
  | assemblyRef => "AssemblyRef"
  | file => "File"
  | exportedType => "ExportedType"
  | manifestResource => "ManifestResource"
  | nestedClass => "NestedClass"
  | genericParam => "GenericParam"
  | methodSpec => "MethodSpec"
  | genericParamConstraint => "GenericParamConstraint"

/-- All tables in the order of their numbers. -/
def all : List Table :=
  [module, typeRef, typeDef, field, methodDef, param, interfaceImpl, memberRef, constant,
    customAttribute, fieldMarshal, declSecurity, classLayout, fieldLayout, standAloneSig,
    eventMap, event, propertyMap, property, methodSemantics, methodImpl, moduleRef, typeSpec,
    implMap, fieldRva, assembly, assemblyRef, file, exportedType, manifestResource, nestedClass,
    genericParam, methodSpec, genericParamConstraint]

def ofNumber? (n : Nat) : Option Table := all.find? (·.number == n)

def ofName? (s : String) : Option Table := all.find? (·.name == s)

theorem mem_all (t : Table) : t ∈ all := by
  cases t <;> decide

theorem ofNumber?_number (t : Table) : ofNumber? t.number = some t := by
  cases t <;> rfl

end Table

end Cil
