import Cil.Assemble.TypeReference

/-!
Signatures of a module, resolved to rows and written as blobs.
-/

namespace Cil

variable (src : Source)

/-- Numbers inside signatures have to be compressible. -/
def checkCompressible (n : Nat) : Emit Unit :=
  if n ≤ Compressed.limit then pure () else throw (.excess (.compressed n))

def isValueType (id : TypeId) : Emit Bool := do
  return (← Emit.ofExcept (src.module.typeInfo id)).kind.isValueType

def CallingConvention.code : CallingConvention → UInt8
  | default => 0x00
  | c => 0x01
  | stdCall => 0x02
  | thisCall => 0x03
  | fastCall => 0x04
  | varArgs => 0x05

/-- The first byte of a method signature. -/
def conventionByte (isInstance explicitThis : Bool) (convention : CallingConvention)
    (genericArity : Nat) : UInt8 :=
  .ofNat (convention.code.toNat + flagMask [
    (0 < genericArity, Convention.generic.toNat),
    (isInstance, Convention.hasThis.toNat),
    (explicitThis, Convention.explicitThis.toNat)])

mutual

def resolveType : TypeSig → Emit ResolvedType
  | .primitive p => pure (.element p.elementType)
  | .named id => do
    let row ← namedType src id
    if ← isValueType src id then return .valueType row else return .reference row
  | .generic id arguments => do
    checkCompressible arguments.length
    let valueType ← isValueType src id
    let template ← namedType src id
    return .generic valueType template (← resolveTypes #[] arguments)
  | .array element shape => do
    checkCompressible shape.rank
    shape.sizes.forM checkCompressible
    return .array (← resolveType element) shape.rank shape.sizes shape.lowerBounds
  | .vector element => return .vector (← resolveType element)
  | .pointer none => return .pointer none
  | .pointer (some pointee) => return .pointer (some (← resolveType pointee))
  | .reference inner => return .byRef (← resolveType inner)
  | .pinned inner => return .pinned (← resolveType inner)
  | .modified modifier required inner => do
    let row ← namedType src modifier
    return .modified required row (← resolveType inner)
  | .typeParameter n => do checkCompressible n; return .typeParameter n
  | .methodParameter n => do checkCompressible n; return .methodParameter n
  | .functionPointer isInstance explicitThis convention returnType parameters => do
    checkCompressible parameters.length
    let returned ← resolveType returnType
    return .functionPointer (conventionByte isInstance explicitThis convention 0) 0 returned
      (← resolveTypes #[] parameters) []

/-- The types behind those that are resolved already. -/
def resolveTypes (done : Array ResolvedType) : List TypeSig → Emit (List ResolvedType)
  | [] => pure done.toList
  | t :: ts => do
    let r ← resolveType t
    resolveTypes (done.push r) ts

end

def resolveMethod (s : MethodSignature) (genericArity : Nat) (varArgs : List TypeSig) :
    Emit ResolvedMethod := do
  checkCompressible (s.parameters.length + varArgs.length)
  checkCompressible genericArity
  let returnType ← resolveType src s.returnType
  let parameters ← resolveTypes src #[] s.parameters
  return {
    convention := conventionByte s.isInstance s.explicitThis s.convention genericArity
    genericArity, returnType, parameters
    varArgs := ← resolveTypes src #[] varArgs }

def typeBlob (t : TypeSig) : Emit Bytes := do
  Emit.ofEncoding (Field.join (← resolveType src t).fields)

/-- The signature of a method, with the types of additional arguments where it is called. -/
def methodBlob (s : MethodSignature) (genericArity : Nat) (varArgs : List TypeSig) :
    Emit Bytes := do
  Emit.ofEncoding (Field.join (← resolveMethod src s genericArity varArgs).fields)

def fieldBlob (f : FieldDef) : Emit Bytes := do
  let mut modifiers := []
  if f.isVolatile then
    let some modifier := src.module.isVolatile | throw (.unresolved (.volatileModifier f.name))
    modifiers := [(true, ← namedType src modifier)]
  let resolved : ResolvedField := { modifiers, fieldType := ← resolveType src f.fieldType }
  Emit.ofEncoding (Field.join resolved.fields)

def propertyBlob (p : Property) : Emit Bytes := do
  checkCompressible p.parameters.length
  let propertyType ← resolveType src p.propertyType
  let resolved : ResolvedProperty := {
    hasThis := p.isInstance, propertyType
    parameters := ← resolveTypes src #[] p.parameters }
  Emit.ofEncoding (Field.join resolved.fields)

def localsBlob (locals : Array LocalVariable) : Emit Bytes := do
  checkCompressible locals.size
  let types ← resolveTypes src #[] (locals.toList.map (·.variableType))
  let resolved := List.zipWith (fun (v : LocalVariable) t => (⟨v.pinned, t⟩ : ResolvedLocal))
    locals.toList types
  Emit.ofEncoding (Field.join (ResolvedLocal.fieldsAll resolved))

def instantiationBlob (arguments : List TypeSig) : Emit Bytes := do
  checkCompressible arguments.length
  Emit.ofEncoding
    (Field.join (ResolvedType.instantiationFields (← resolveTypes src #[] arguments)))

end Cil
