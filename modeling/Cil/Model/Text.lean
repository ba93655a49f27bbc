import Cil.Model.Attribute
import Cil.Text.Float
import Cil.Text.Quoted

/-!
The texts of identifiers, types and attribute values in messages: the name of the form, and its parts
in parentheses, brackets or braces.
-/

namespace Cil

def TypeId.text (id : TypeId) : String := s!"TypeId({id.index})"

/-- A record by its name and the texts of its fields. -/
def recordText (name : String) (fields : List (String × String)) : String :=
  name ++ " \x7b " ++ ", ".intercalate (fields.map fun (key, value) => key ++ ": " ++ value) ++
    " \x7d"

def listText (items : List String) : String := "[" ++ ", ".intercalate items ++ "]"

def memberIdText (name : String) (parent : TypeId) (index : Nat) : String :=
  recordText name [("parent_type", parent.text), ("index", toString index)]

def FieldId.text (id : FieldId) : String := memberIdText "FieldId" id.parent id.index

def MethodId.text (id : MethodId) : String := memberIdText "MethodId" id.parent id.index

def BlockId.text (id : BlockId) : String := s!"BlockId({id.index})"

def DocumentId.text (id : DocumentId) : String := s!"DocumentId({id.index})"

def Primitive.text : Primitive → String
  | void => "Void"
  | boolean => "Boolean"
  | char => "Char"
  | int8 => "Int8"
  | uint8 => "UInt8"
  | int16 => "Int16"
  | uint16 => "UInt16"
  | int32 => "Int32"
  | uint32 => "UInt32"
  | int64 => "Int64"
  | uint64 => "UInt64"
  | float32 => "Float32"
  | float64 => "Float64"
  | intPtr => "IntPtr"
  | uintPtr => "UIntPtr"
  | object => "Object"
  | string => "String"
  | typedReference => "TypedReference"

def CallingConvention.text : CallingConvention → String
  | default => "Default"
  | varArgs => "Vararg"
  | c => "C"
  | stdCall => "StdCall"
  | thisCall => "ThisCall"
  | fastCall => "FastCall"

def ArrayShape.text (s : ArrayShape) : String :=
  recordText "ArrayShape" [("rank", toString s.rank), ("sizes", listText (s.sizes.map toString)),
    ("lower_bounds", listText (s.lowerBounds.map toString))]

namespace TypeSig

mutual

def text : TypeSig → String
  | primitive p => p.text
  | named id => "Named(" ++ id.text ++ ")"
  | generic id arguments =>
    "GenericInstance(" ++ id.text ++ ", " ++ listText (textAll arguments) ++ ")"
  | array element shape => "Array(" ++ text element ++ ", " ++ shape.text ++ ")"
  | vector element => "Vector(" ++ text element ++ ")"
  | pointer none => "Pointer(None)"
  | pointer (some pointee) => "Pointer(Some(" ++ text pointee ++ "))"
  | reference inner => "Reference(" ++ text inner ++ ")"
  | pinned inner => "Pinned(" ++ text inner ++ ")"
  | modified modifier required inner =>
    recordText "Modified" [("modifier", modifier.text), ("required", toString required),
      ("inner", text inner)]
  | typeParameter n => s!"TypeParameter({n})"
  | methodParameter n => s!"MethodParameter({n})"
  | functionPointer isInstance explicitThis convention returnType parameters =>
    "FunctionPointer(" ++ recordText "MethodSignature" [("instance", toString isInstance),
      ("explicit_this", toString explicitThis), ("calling_convention", convention.text),
      ("return_type", text returnType), ("parameters", listText (textAll parameters))] ++ ")"

def textAll : List TypeSig → List String
  | [] => []
  | t :: ts => text t :: textAll ts

end

end TypeSig

def Scalar.text : Scalar → String
  | boolean v => s!"Boolean({v})"
  | char v => s!"Char({v.toNat})"
  | int8 v => s!"Int8({v.toInt})"
  | uint8 v => s!"UInt8({v.toNat})"
  | int16 v => s!"Int16({v.toInt})"
  | uint16 v => s!"UInt16({v.toNat})"
  | int32 v => s!"Int32({v.toInt})"
  | uint32 v => s!"UInt32({v.toNat})"
  | int64 v => s!"Int64({v.toInt})"
  | uint64 v => s!"UInt64({v.toNat})"
  | float32 bits => s!"Float32({FloatFormat.single.text bits.toNat})"
  | float64 bits => s!"Float64({FloatFormat.double.text bits.toNat})"

namespace AttributeValue

mutual

def text : AttributeValue → String
  | scalar v => v.text
  | string none => "String(None)"
  | string (some v) => "String(Some(" ++ Quoted.text v ++ "))"
  | type none => "Type(None)"
  | type (some t) => "Type(Some(" ++ t.text ++ "))"
  | enumeration id underlying => "Enum(" ++ id.text ++ ", " ++ text underlying ++ ")"
  | array element none => "Array(" ++ element.text ++ ", None)"
  | array element (some items) =>
    "Array(" ++ element.text ++ ", Some(" ++ listText (textAll items) ++ "))"

def textAll : List AttributeValue → List String
  | [] => []
  | v :: vs => text v :: textAll vs

end

end AttributeValue
end Cil
