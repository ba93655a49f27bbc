import Cil.Compressed
import Cil.CodedIndex

/-!
Signature blobs. Here all references to types are rows already, so that a signature is the list of
its fields. `ElementType` holds the bytes that tell types apart, `Convention` those that start a
signature.
-/

namespace Cil

namespace ElementType

def void : UInt8 := 0x01
def boolean : UInt8 := 0x02
def char : UInt8 := 0x03
def int8 : UInt8 := 0x04
def uint8 : UInt8 := 0x05
def int16 : UInt8 := 0x06
def uint16 : UInt8 := 0x07
def int32 : UInt8 := 0x08
def uint32 : UInt8 := 0x09
def int64 : UInt8 := 0x0A
def uint64 : UInt8 := 0x0B
def float32 : UInt8 := 0x0C
def float64 : UInt8 := 0x0D
def string : UInt8 := 0x0E
def pointer : UInt8 := 0x0F
def byRef : UInt8 := 0x10
def valueType : UInt8 := 0x11
def reference : UInt8 := 0x12
def typeParameter : UInt8 := 0x13
def array : UInt8 := 0x14
def genericInstance : UInt8 := 0x15
def typedReference : UInt8 := 0x16
def intPtr : UInt8 := 0x18
def uintPtr : UInt8 := 0x19
def functionPointer : UInt8 := 0x1B
def object : UInt8 := 0x1C
def vector : UInt8 := 0x1D
def methodParameter : UInt8 := 0x1E
def requiredModifier : UInt8 := 0x1F
def optionalModifier : UInt8 := 0x20
def sentinel : UInt8 := 0x41
def pinned : UInt8 := 0x45

end ElementType

namespace Convention

def varArgs : UInt8 := 0x05
def field : UInt8 := 0x06
def locals : UInt8 := 0x07
def property : UInt8 := 0x08
def instantiation : UInt8 := 0x0A
def generic : UInt8 := 0x10
def hasThis : UInt8 := 0x20
def explicitThis : UInt8 := 0x40

end Convention

/-- A type whose references are rows. A function pointer holds the parts of its signature. -/
inductive ResolvedType
  | element (tag : UInt8)
  | reference (row : TypeDefOrRef)
  | valueType (row : TypeDefOrRef)
  | generic (isValueType : Bool) (template : TypeDefOrRef) (arguments : List ResolvedType)
  | array (element : ResolvedType) (rank : Nat) (sizes : List Nat) (lowerBounds : List Int)
  | vector (element : ResolvedType)
  | pointer (pointee : Option ResolvedType)
  | byRef (inner : ResolvedType)
  | pinned (inner : ResolvedType)
  | modified (required : Bool) (modifier : TypeDefOrRef) (inner : ResolvedType)
  | typeParameter (number : Nat)
  | methodParameter (number : Nat)
  | functionPointer (convention : UInt8) (genericArity : Nat) (returnType : ResolvedType)
      (parameters varArgs : List ResolvedType)

/-- The compressed code of a row. -/
def CodedIndex.compressed {k : CodedIndex.Kind} (i : CodedIndex k) : Field :=
  i.encode.bind Compressed.unsigned

namespace ResolvedType

def classOrValue (isValueType : Bool) : Field :=
  .byte (if isValueType then ElementType.valueType else ElementType.reference)

def modifierFields (required : Bool) (modifier : TypeDefOrRef) : List Field :=
  [.byte (if required then ElementType.requiredModifier else ElementType.optionalModifier),
    modifier.compressed]

/-- What stands in front of the return type of a method. -/
def conventionFields (convention : UInt8) (genericArity count : Nat) : List Field :=
  .byte convention ::
    ((if convention &&& Convention.generic != 0 then [Compressed.unsigned genericArity] else []) ++
      [Compressed.count count])

mutual

def fields : ResolvedType → List Field
  | element tag => [.byte tag]
  | reference row => [.byte ElementType.reference, row.compressed]
  | valueType row => [.byte ElementType.valueType, row.compressed]
  | generic isValueType template arguments =>
    [.byte ElementType.genericInstance, classOrValue isValueType, template.compressed,
      Compressed.count arguments.length] ++ fieldsAll arguments
  | array inner rank sizes lowerBounds =>
    [.byte ElementType.array] ++ fields inner ++
      [Compressed.unsigned rank, Compressed.count sizes.length] ++
      sizes.map Compressed.unsigned ++ [Compressed.count lowerBounds.length] ++
      lowerBounds.map Compressed.signed
  | vector inner => .byte ElementType.vector :: fields inner
  | pointer none => [.byte ElementType.pointer, .byte ElementType.void]
  | pointer (some pointee) => .byte ElementType.pointer :: fields pointee
  | byRef inner => .byte ElementType.byRef :: fields inner
  | pinned inner => .byte ElementType.pinned :: fields inner
  | modified required modifier inner => modifierFields required modifier ++ fields inner
  | typeParameter number => [.byte ElementType.typeParameter, Compressed.unsigned number]
  | methodParameter number => [.byte ElementType.methodParameter, Compressed.unsigned number]
  | functionPointer convention genericArity returnType parameters varArgs =>
    .byte ElementType.functionPointer ::
      (conventionFields convention genericArity (parameters.length + varArgs.length) ++
        fields returnType ++ fieldsAll parameters ++ sentinelFields varArgs)

def fieldsAll : List ResolvedType → List Field
  | [] => []
  | t :: ts => fields t ++ fieldsAll ts

/-- The arguments behind the sentinel, which stands only in front of some. -/
def sentinelFields : List ResolvedType → List Field
  | [] => []
  | t :: ts => .byte ElementType.sentinel :: (fields t ++ fieldsAll ts)

end

end ResolvedType

structure ResolvedMethod where
  convention : UInt8 := 0
  genericArity : Nat := 0
  returnType : ResolvedType
  parameters : List ResolvedType := []
  /-- The types behind the sentinel of a call with a variable number of arguments. -/
  varArgs : List ResolvedType := []

def ResolvedMethod.fields (m : ResolvedMethod) : List Field :=
  ResolvedType.conventionFields m.convention m.genericArity
      (m.parameters.length + m.varArgs.length) ++
    m.returnType.fields ++ ResolvedType.fieldsAll m.parameters ++
    ResolvedType.sentinelFields m.varArgs

structure ResolvedField where
  modifiers : List (Bool × TypeDefOrRef) := []
  fieldType : ResolvedType

def ResolvedField.fields (f : ResolvedField) : List Field :=
  .byte Convention.field ::
    (f.modifiers.flatMap fun (required, modifier) =>
      ResolvedType.modifierFields required modifier) ++ f.fieldType.fields

structure ResolvedProperty where
  hasThis : Bool
  propertyType : ResolvedType
  parameters : List ResolvedType := []

def ResolvedProperty.fields (p : ResolvedProperty) : List Field :=
  [.byte (if p.hasThis then Convention.property ||| Convention.hasThis else Convention.property),
    Compressed.count p.parameters.length] ++
    p.propertyType.fields ++ ResolvedType.fieldsAll p.parameters

structure ResolvedLocal where
  pinned : Bool := false
  variableType : ResolvedType

def ResolvedLocal.fields (v : ResolvedLocal) : List Field :=
  (if v.pinned then [.byte ElementType.pinned] else []) ++ v.variableType.fields

/-- The signature of the locals of a method. -/
def ResolvedLocal.fieldsAll (vs : List ResolvedLocal) : List Field :=
  [.byte Convention.locals, Compressed.count vs.length] ++ vs.flatMap (·.fields)

/-- The arguments of a generic method. -/
def ResolvedType.instantiationFields (arguments : List ResolvedType) : List Field :=
  [.byte Convention.instantiation, Compressed.count arguments.length] ++
    ResolvedType.fieldsAll arguments

/-- A text with its compressed length in front; one byte stands for the absent text. -/
def serializedText : Option String → List Field
  | none => [.byte 0xFF]
  | some text => [Compressed.count text.utf8ByteSize, .ok (Bytes.ofText text)]

end Cil
