import Cil.Assemble.Signature
import Cil.Token

/-!
Rows and tokens for uses of types and members. A use needs a row of its own if its signature or its
declaring type differs from the definition; equal uses share a row.
-/

namespace Cil

variable (src : Source)

def typeSpecRow (blob : Bytes) : Emit Nat := do
  let signature ← Emit.blob blob
  Emit.internSpec .typeSpec (·.typeSpec blob) (fun s r => s.blobs.holds r.signature.offset blob)
    { signature }

def typeSpec (t : TypeSig) : Emit Nat := typeBlob src t >>= typeSpecRow

def typeToken (t : TypeSig) : Emit TypeDefOrRef := do
  match t with
  | .named id => namedType src id
  | .primitive p => primitiveType src p
  | t => return .row .typeSpec (← typeSpec src t)

/-- The token of the row of a coded index. -/
def CodedIndex.token {k : CodedIndex.Kind} : CodedIndex k → Token
  | .null => ⟨.table .module, 0⟩
  | .row t number _ => .row t number

def memberRef (parent : CodedIndex .memberRefParent) (name : String) (signature : Bytes) :
    Emit Nat := do
  let name ← Emit.string name
  let signature ← Emit.blob signature
  Emit.intern .memberRef { parent, name, signature }

/-- A type as the parent of a member. -/
def TypeDefOrRef.parent : TypeDefOrRef → CodedIndex .memberRefParent
  | .null => .null
  | .row .typeDef row _ => .row .typeDef row
  | .row .typeRef row _ => .row .typeRef row
  | .row _ row _ => .row .typeSpec row

/-- The parent that a reference to a member needs; none if its definition can be used. -/
def memberParent (parent : Option TypeSig) (owner : TypeId) :
    Emit (Option (CodedIndex .memberRefParent)) := do
  let same := match parent with
    | some (.named id) => id == owner
    | some _ => false
    | none => true
  match parent, same with
  | some t, false => return some (TypeDefOrRef.parent (← typeToken src t))
  | _, _ =>
    if (← Emit.ofExcept (src.module.typeInfo owner)).isDefined then return none
    else return some (.row .typeRef (← typeRef src owner))

/-- The definition of a method or a reference to it, whatever its type arguments. -/
def methodDefOrRef (r : MethodRef) : Emit MethodDefOrRef := do
  let m ← Emit.ofExcept (src.module.methodDef r.method)
  let parent ← memberParent src r.parent r.method.parent
  match parent with
  | none =>
    let row ← Emit.ofExcept (src.numbering.methodRow r.method)
    if r.varArgTypes.isEmpty then return .row .methodDef row
    else
      let signature ← methodBlob src m.signature m.genericParameters.length r.varArgTypes
      return .row .memberRef (← memberRef (.row .methodDef row) m.name signature)
  | some parent =>
    let signature ← methodBlob src m.signature m.genericParameters.length r.varArgTypes
    return .row .memberRef (← memberRef parent m.name signature)

def methodSpecRow (method : MethodDefOrRef) (blob : Bytes) : Emit Nat := do
  let instantiation ← Emit.blob blob
  Emit.internSpec .methodSpec (·.methodSpec method instantiation)
    (fun s r => r.method == method && s.blobs.holds r.instantiation.offset blob)
    { method, instantiation }

def methodToken (r : MethodRef) : Emit Token := do
  let method ← methodDefOrRef src r
  if r.genericArguments.isEmpty then return method.token
  let blob ← instantiationBlob src r.genericArguments
  return .row .methodSpec (← methodSpecRow method blob)

def fieldToken (r : FieldRef) : Emit Token := do
  let f ← Emit.ofExcept (src.module.fieldDef r.field)
  match ← memberParent src r.parent r.field.parent with
  | some parent =>
    let signature ← fieldBlob src f
    return .row .memberRef (← memberRef parent f.name signature)
  | none => return .row .field (← Emit.ofExcept (src.numbering.fieldRow r.field))

/-- A method that the runtime provides for an array type. -/
def arrayMethod (array : TypeSig) (name : String) (s : MethodSignature) : Emit Token := do
  let parent ← typeSpec src array
  let signature ← methodBlob src s 0 []
  return .row .memberRef (← memberRef (.row .typeSpec parent) name signature)

def standAloneSig (signature : Bytes) : Emit Token := do
  let signature ← Emit.blob signature
  return .row .standAloneSig (← Emit.intern .standAloneSig { signature })

/-- The constructor of an attribute. -/
def attributeConstructor (r : MethodRef) : Emit (CodedIndex .customAttributeType) := do
  unless r.genericArguments.isEmpty do throw (.violation .genericConstructor)
  match ← methodDefOrRef src r with
  | .null => return .null
  | .row .methodDef row _ => return .row .methodDef row
  | .row _ row _ => return .row .memberRef row

end Cil
