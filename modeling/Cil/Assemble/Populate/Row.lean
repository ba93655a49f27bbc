import Cil.Assemble.Attribute
import Cil.Assemble.Reference

/-!
Rows that several kinds of definitions have: constants, marshalling descriptors, permission sets, and
the attributes that wait for their owners.
-/

namespace Cil

/-- A defined type with the rows of its members. -/
structure Definition where
  info : TypeInfo
  rows : TypeRows

/-- The defined types in the order of their rows. -/
def Source.definitions (src : Source) : List Definition :=
  src.numbering.order.filterMap fun id => do
    return ⟨← src.module.type? id, ← src.numbering.rows? id⟩

namespace Definition

variable (d : Definition)

/-- The fields with their rows. -/
def fields : List (FieldDef × Nat) := d.info.fields.toList.zipIdx d.rows.firstField

/-- The methods with their rows. -/
def methods : List (Method × Nat) := d.info.methods.toList.zipIdx d.rows.firstMethod

def properties : List (Property × Nat) := d.info.properties.toList.zipIdx d.rows.firstProperty

def events : List (Event × Nat) := d.info.events.toList.zipIdx d.rows.firstEvent

end Definition

namespace Populate

/-- Leaves attributes for later. -/
def attach (owner : Owner) (attributes : List Attribute) : Emit Unit :=
  modify fun s =>
    { s with attributes := attributes.foldl (fun as a => as.push (owner, a)) s.attributes }

def constant (parent : CodedIndex .hasConstant) (v : Constant) : Emit Unit := do
  let value ← Emit.blob v.bytes
  let _ ← Emit.insert .constant { kind := v.elementType, padding := 0, parent, value }

def marshal (parent : CodedIndex .hasFieldMarshal) (descriptor : Bytes) : Emit Unit := do
  let nativeType ← Emit.blob descriptor
  let _ ← Emit.insert .fieldMarshal { parent, nativeType }

def security (src : Source) (parent : CodedIndex .hasDeclSecurity)
    (declarations : List SecurityDeclaration) : Emit Unit :=
  declarations.forM fun d => do
    let blob ← Emit.ofExcept (AttributeBlob.ofPermissionSet src.module d.permissionSet)
    let permissionSet ← Emit.blob blob
    let _ ← Emit.insert .declSecurity { action := d.action.code, parent, permissionSet }

end Populate
end Cil
