import Cil.Assemble.Populate.Row

/-!
Rows of the defined types and of their members, table by table.
-/

namespace Cil
namespace Populate

variable (src : Source)

def typeDefRow (d : Definition) (base : TypeDefOrRef) : Emit Unit := do
  let typeNamespace ← Emit.string? d.info.typeNamespace
  let name ← Emit.string d.info.name
  let _ ← Emit.push .typeDef {
    flags := d.info.flagMask
    name, typeNamespace, base
    fieldList := ⟨d.rows.firstField⟩
    methodList := ⟨d.rows.firstMethod⟩ }
  attach (.row (.row .typeDef d.rows.row)) d.info.attributes

def typeDef (d : Definition) : Emit Unit :=
  match d.info.base with
  | some t => typeToken src t >>= typeDefRow d
  | none => typeDefRow d .null

def fields (d : Definition) : Emit Unit :=
  d.fields.forM fun (f, row) => do
    let blob ← fieldBlob src f
    let name ← Emit.string f.name
    let signature ← Emit.blob blob
    let _ ← Emit.push .field { flags := f.flags, name, signature }
    attach (.row (.row .field row)) f.attributes

def methods (d : Definition) : Emit Unit :=
  (d.methods.zip d.rows.firstParams.toList).forM fun ((m, row), firstParam) => do
    let blob ← methodBlob src m.signature m.genericParameters.length []
    let name ← Emit.string m.name
    let signature ← Emit.blob blob
    let _ ← Emit.push .methodDef {
      rva := 0
      implFlags := m.implFlags.mask
      flags := m.flags
      name, signature
      paramList := ⟨firstParam⟩ }
    attach (.row (.row .methodDef row)) m.attributes

def paramParts (p : Parameter) (row : Nat) : Emit Unit := do
  p.default.toList.forM (constant (.row .param row))
  p.marshal.toList.forM (marshal (.row .param row))
  attach (.row (.row .param row)) p.attributes

/-- The row of a parameter; the returned value has the number 0. -/
def param (sequence : Nat) (p : Parameter) : Emit Unit := do
  let name ← Emit.string? p.name
  Emit.push .param { flags := p.flags, sequence := .ofNat sequence, name } >>= paramParts p

def params (d : Definition) : Emit Unit :=
  d.info.methods.toList.forM fun m => do
    m.returnInfo.toList.forM (param 0)
    (m.parameters.zipIdx 1).forM fun (p, sequence) => param sequence p

def interfaces (d : Definition) : Emit Unit :=
  d.info.interfaces.forM fun i => do
    let interface ← typeToken src i.interface
    let _ ← Emit.insert .interfaceImpl { owner := ⟨d.rows.row⟩, interface }
    attach (.interface d.rows.row interface) i.attributes

def fieldParts (d : Definition) : Emit Unit :=
  d.fields.forM fun (f, row) => do
    f.default.toList.forM (constant (.row .field row))
    f.marshal.toList.forM (marshal (.row .field row))

def classLayout (d : Definition) : Emit Unit :=
  d.info.classLayout.toList.forM fun layout => do
    let _ ← Emit.insert .classLayout
      { packingSize := layout.packingSize, classSize := layout.classSize, parent := ⟨d.rows.row⟩ }

def fieldLayouts (d : Definition) : Emit Unit :=
  d.fields.forM fun (f, row) => f.offset.toList.forM fun offset => do
    let _ ← Emit.insert .fieldLayout { offset, field := ⟨row⟩ }

/-- What types and fields have in tables of their own: interfaces, constants, security, layout. -/
def members (d : Definition) : Emit Unit := do
  interfaces src d
  fieldParts d
  security src (.row .typeDef d.rows.row) d.info.security
  d.methods.forM fun (m, row) => security src (.row .methodDef row) m.security
  classLayout d
  fieldLayouts d

/-- A type with properties has one row that tells where they start. -/
def propertyMap (d : Definition) : Emit Unit := do
  unless d.info.properties.isEmpty do
    let _ ← Emit.push .propertyMap
      { parent := ⟨d.rows.row⟩, propertyList := ⟨d.rows.firstProperty⟩ }

def propertyRows (d : Definition) : Emit Unit :=
  d.properties.forM fun (p, row) => do
    let blob ← propertyBlob src p
    let name ← Emit.string p.name
    let signature ← Emit.blob blob
    let _ ← Emit.push .property { flags := p.flags, name, signature }
    p.default.toList.forM (constant (.row .property row))
    attach (.row (.row .property row)) p.attributes

def properties (d : Definition) : Emit Unit := do
  propertyMap d
  propertyRows src d

def eventMap (d : Definition) : Emit Unit := do
  unless d.info.events.isEmpty do
    let _ ← Emit.push .eventMap { parent := ⟨d.rows.row⟩, eventList := ⟨d.rows.firstEvent⟩ }

def eventRows (d : Definition) : Emit Unit :=
  d.events.forM fun (e, row) => do
    let kind ← typeToken src e.delegateType
    let name ← Emit.string e.name
    let _ ← Emit.push .event { flags := e.flags, name, kind }
    attach (.row (.row .event row)) e.attributes

def events (d : Definition) : Emit Unit := do
  eventMap d
  eventRows src d

/-- Ties a method to a property or an event. -/
def accessor (association : CodedIndex .hasSemantics) (semantics : UInt16) (method : MethodId) :
    Emit Unit := do
  let row ← Emit.ofExcept (src.numbering.methodRow method)
  let _ ← Emit.insert .methodSemantics { semantics, method := ⟨row⟩, association }

def accessors (d : Definition) : Emit Unit := do
  d.properties.forM fun (p, row) => do
    let tie := accessor src (.row .property row)
    p.setter.toList.forM (tie 0x1)
    p.getter.toList.forM (tie 0x2)
    p.other.forM (tie 0x4)
  d.events.forM fun (e, row) => do
    let tie := accessor src (.row .event row)
    e.addListener.toList.forM (tie 0x8)
    e.removeListener.toList.forM (tie 0x10)
    e.raiseEvent.toList.forM (tie 0x20)
    e.other.forM (tie 0x4)

def methodImpls (d : Definition) : Emit Unit :=
  d.info.overrides.forM fun o => do
    let body ← methodDefOrRef src o.implementation
    let declaration ← methodDefOrRef src o.declaration
    let _ ← Emit.insert .methodImpl { owner := ⟨d.rows.row⟩, body, declaration }

def implMap (memberForwarded : CodedIndex .memberForwarded) (p : PlatformInvoke) :
    Emit Unit := do
  let scope ← moduleRef src p.module
  let importName ← Emit.string p.importName
  let _ ← Emit.insert .implMap
    { flags := p.flags, memberForwarded, importName, importScope := ⟨scope⟩ }

def implMaps (d : Definition) : Emit Unit := do
  d.fields.forM fun (f, row) => f.platformInvoke.toList.forM (implMap src (.row .field row))
  d.methods.forM fun (m, row) => m.platformInvoke.toList.forM (implMap src (.row .methodDef row))

/-- Stores the initial value of a static field. -/
def fieldRva (row : Nat) (initial : InitialValue) : Emit Unit := do
  let offset ← modifyGet fun s =>
    let (offset, staticData) := s.staticData.append initial.data initial.place
    (offset, { s with staticData })
  let position ← Emit.insert .fieldRva { rva := 0, field := ⟨row⟩ }
  modify fun s =>
    { s with fieldData := s.fieldData.insertIdxIfInBounds position (initial.place, offset) }

def fieldRvas (d : Definition) : Emit Unit :=
  d.fields.forM fun (f, row) => f.initialValue.toList.forM (fieldRva row)

end Populate
end Cil
