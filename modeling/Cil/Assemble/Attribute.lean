import Cil.Assemble.TypeName

/-!
Values of custom attributes and permission sets. A value has to be of the type that is declared for
it; as an `object` it carries its own type.
-/

namespace Cil
namespace AttributeBlob

def typeTag : UInt8 := 0x50
def boxedTag : UInt8 := 0x51
def fieldTag : UInt8 := 0x53
def propertyTag : UInt8 := 0x54
def enumTag : UInt8 := 0x55

def text (s : Option String) : Except Error Bytes :=
  (Field.join (serializedText s)).mapError .encoding

/-- Whether arguments can be declared with a primitive type as such. -/
def isArgument : Primitive → Bool
  | .boolean | .char | .int8 | .uint8 | .int16 | .uint16 | .int32 | .uint32 | .int64 | .uint64
  | .float32 | .float64 | .string => true
  | .void | .intPtr | .uintPtr | .object | .typedReference => false

/-- Whether a value is one of a primitive type. -/
def isOfPrimitive (declared : TypeSig) : AttributeValue → Bool
  | .scalar v => declared == .primitive v.type
  | .string _ => declared == .primitive .string
  | _ => false

def isIntegral : AttributeValue → Bool
  | .scalar v => v.isIntegral
  | _ => false

def enumType (m : Module) (id : TypeId) : Except Error Bytes := do
  return enumTag :: (← text (some (← TypeName.serialized m (.named id))))

/-- The code of a declared type. -/
def declaredType (m : Module) : TypeSig → Except Error Bytes
  | .modified _ _ inner => declaredType m inner
  | .pinned inner => declaredType m inner
  | .primitive .object => return [boxedTag]
  | .primitive p =>
    if isArgument p then return [p.elementType] else throw (.excess (.argumentType (.primitive p)))
  | .vector element => return ElementType.vector :: (← declaredType m element)
  | .named id => do
    let t ← m.typeInfo id
    if t.kind = .enum then enumType m id
    else if t.fullName = "System.Type" then return [typeTag]
    else throw (.excess (.argumentTypeName t.fullName))
  | t => throw (.excess (.argumentType t))

/-- The code of the type of a value. -/
def ownType (m : Module) : AttributeValue → Except Error Bytes
  | .scalar v => return [v.type.elementType]
  | .string _ => return [ElementType.string]
  | .type _ => return [typeTag]
  | .enumeration id _ => enumType m id
  | .array element _ => return ElementType.vector :: (← declaredType m element)

/-- The value of an enumeration has the type of its instance field, if that is known, and is some
integer otherwise. -/
def checkEnumeration (m : Module) (id : TypeId) (underlying : AttributeValue) :
    Except Error Unit := do
  let t ← m.typeInfo id
  unless t.kind = .enum do throw (.excess (.notEnumeration t.fullName))
  let fits := match t.fields.find? (!·.isStatic) with
    | some f => isOfPrimitive f.fieldType.unmodified underlying
    | none => isIntegral underlying
  unless fits do throw (.excess (.enumerationValue underlying t.fullName))

/-- Checks that a value can stand where a type is declared, and gives what goes in front of it: its own
type where any object can stand, and nothing otherwise. -/
def accept (m : Module) (declared : TypeSig) (v : AttributeValue) : Except Error Bytes := do
  let mismatch := Error.excess (.argument v declared.unmodified)
  match declared.unmodified, v with
  | .primitive .object, _ => ownType m v
  | .vector element, .array itemType _ =>
    if itemType.unmodified = element.unmodified then return [] else throw mismatch
  | .named id, _ =>
    let t ← m.typeInfo id
    match v with
    | .enumeration e _ => if e = id ∧ t.kind = .enum then return [] else throw mismatch
    | .type _ => if t.fullName = "System.Type" then return [] else throw mismatch
    | _ => throw mismatch
  | t, _ => if isOfPrimitive t v then return [] else throw mismatch

mutual

/-- A value without its type. -/
def value (m : Module) : AttributeValue → Except Error Bytes
  | .scalar v => return v.bytes
  | .string s => text s
  | .type none => text none
  | .type (some t) => do text (some (← TypeName.serialized m t))
  | .enumeration id underlying => do
    checkEnumeration m id underlying
    value m underlying
  | .array _ none => return Bytes.le 4 0xFFFFFFFF
  | .array element (some items) => do
    return Bytes.le 4 items.length ++ (← values m element #[] items).toList

/-- Values that are all declared with one type, behind those that are written already. -/
def values (m : Module) (declared : TypeSig) (done : Array UInt8) :
    List AttributeValue → Except Error (Array UInt8)
  | [] => return done
  | v :: vs => do
    let front ← accept m declared v
    let bytes ← value m v
    values m declared (done ++ front ++ bytes) vs

end

/-- A value where a type is declared. -/
def argument (m : Module) (declared : TypeSig) (v : AttributeValue) : Except Error Bytes := do
  return (← accept m declared v) ++ (← value m v)

/-- The arguments of a constructor, each with its declared type. -/
def fixedArguments (m : Module) : List (TypeSig × AttributeValue) → Except Error Bytes
  | [] => return []
  | (declared, v) :: rest => return (← argument m declared v) ++ (← fixedArguments m rest)

def namedArgument (m : Module) (n : NamedArgument) : Except Error Bytes := do
  let target := match n.target with
    | .field => fieldTag
    | .property => propertyTag
  let type ← declaredType m n.argumentType
  let name ← text (some n.name)
  return target :: (type ++ name ++ (← argument m n.argumentType n.value))

/-- Named arguments behind those that are written already. -/
def namedArguments (m : Module) (done : Array UInt8) :
    List NamedArgument → Except Error (Array UInt8)
  | [] => return done
  | n :: rest => do namedArguments m (done ++ (← namedArgument m n)) rest

/-- The value of an attribute. -/
def ofAttribute (m : Module) (a : Attribute) : Except Error Bytes := do
  let parameters := (← m.methodDef a.constructor.method).signature.parameters
  unless parameters.length = a.arguments.length do
    throw (.excess (.attributeArguments parameters.length a.arguments.length))
  unless a.named.length ≤ 0xFFFF do throw (.excess (.namedArguments a.named.length))
  let fixed ← fixedArguments m (parameters.zip a.arguments)
  let named ← namedArguments m #[] a.named
  return Bytes.le 2 1 ++ fixed ++ Bytes.le 2 a.named.length ++ named.toList

def compressed (length : Nat) : Except Error Bytes := (Compressed.count length).mapError .encoding

def securityAttribute (m : Module) (a : SecurityAttribute) : Except Error Bytes := do
  let name ← text (some (← TypeName.serialized m (.named a.attributeType)))
  let properties := (← compressed a.named.length) ++ (← namedArguments m #[] a.named).toList
  return name ++ (← compressed properties.length) ++ properties

/-- A permission set is written as given, or as a list of attributes behind a full stop. -/
def ofPermissionSet (m : Module) : PermissionSet → Except Error Bytes
  | .raw bytes => return bytes
  | .attributes attributes => do
    let count ← compressed attributes.length
    return 0x2E :: (count ++ (← attributes.mapM (securityAttribute m)).flatten)

end AttributeBlob
end Cil
