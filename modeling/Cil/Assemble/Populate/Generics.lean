import Cil.Assemble.Populate.Row

/-!
Rows of nested types and generic parameters. Constraints name the rows of their parameters, and so come
when all of these are in place.
-/

namespace Cil
namespace Populate

variable (src : Source)

def nestedClass (d : Definition) : Emit Unit :=
  d.info.declaringType.toList.forM fun outer => do
    let enclosing ← Emit.ofExcept (src.numbering.typeRow outer)
    let _ ← Emit.insert .nestedClass { nested := ⟨d.rows.row⟩, enclosing := ⟨enclosing⟩ }

/-- The generic parameters of a type and of its methods, each with its owner and number. -/
def genericParameters (d : Definition) :
    List (CodedIndex .typeOrMethodDef × UInt16 × GenericParameter) :=
  let number (owner : CodedIndex .typeOrMethodDef) (ps : List GenericParameter) :=
    ps.zipIdx.map fun (p, i) => (owner, UInt16.ofNat i, p)
  number (.row .typeDef d.rows.row) d.info.genericParameters ++
    d.methods.flatMap fun (m, row) => number (.row .methodDef row) m.genericParameters

def genericParam (owner : CodedIndex .typeOrMethodDef) (number : UInt16) (p : GenericParameter) :
    Emit Unit := do
  let name ← Emit.string p.name
  let _ ← Emit.insert .genericParam { number, flags := p.flags, owner, name }
  attach (.genericParam owner number) p.attributes

/-- The row of the parameter of an owner. -/
def genericParamRow (ts : Tables) (owner : CodedIndex .typeOrMethodDef) (number : UInt16) : Nat :=
  ts.genericParam.findIdx (fun r => r.owner == owner && r.number == number) + 1

def constraints (owner : CodedIndex .typeOrMethodDef) (number : UInt16) (p : GenericParameter) :
    Emit Unit := do
  let row := genericParamRow (← get).tables owner number
  p.constraints.forM fun c => do
    let constraint ← typeToken src c.constraint
    let _ ← Emit.insert .genericParamConstraint { owner := ⟨row⟩, constraint }
    attach (.constraint owner number constraint) c.attributes

def generics : Emit Unit := do
  let parameters := src.definitions.flatMap genericParameters
  parameters.forM fun (owner, number, p) => genericParam owner number p
  parameters.forM fun (owner, number, p) => constraints src owner number p

/-- The row that an attribute belongs to, once all rows are in place. -/
def ownerRow (ts : Tables) : Owner → CodedIndex .hasCustomAttribute
  | .row parent => parent
  | .interface owner interface =>
    .row .interfaceImpl
      (ts.interfaceImpl.findIdx (fun r => r.owner.number == owner && r.interface == interface) + 1)
  | .genericParam owner number => .row .genericParam (genericParamRow ts owner number)
  | .constraint owner number constraint =>
    let param := genericParamRow ts owner number
    .row .genericParamConstraint
      (ts.genericParamConstraint.findIdx
        (fun r => r.owner.number == param && r.constraint == constraint) + 1)

def customAttribute (owner : Owner) (a : Attribute) : Emit Unit := do
  let parent := ownerRow (← get).tables owner
  let kind ← attributeConstructor src a.constructor
  let blob ← Emit.ofExcept (AttributeBlob.ofAttribute src.module a)
  let value ← Emit.blob blob
  let _ ← Emit.insert .customAttribute { parent, kind, value }

/-- Writes the attributes that have waited. -/
def customAttributes : Emit Unit := do
  let waiting ← modifyGet fun s => (s.attributes, { s with attributes := #[] })
  waiting.toList.forM fun (owner, a) => customAttribute src owner a

end Populate
end Cil
