import Cil.Model.Reference
import Cil.Model.Scalar

/-!
Custom attributes and declarative security.
-/

namespace Cil

/-- An argument of an attribute. -/
inductive AttributeValue
  | scalar (v : Scalar)
  | string (v : Option String)
  | type (v : Option TypeSig)
  /-- A value of an enumeration by the value that stands for it. -/
  | enumeration (type : TypeId) (underlying : AttributeValue)
  /-- An array of one dimension, with the type of its elements. -/
  | array (element : TypeSig) (items : Option (List AttributeValue))

inductive NamedTarget | field | property
  deriving DecidableEq

structure NamedArgument where
  target : NamedTarget
  name : String
  argumentType : TypeSig
  value : AttributeValue

structure Attribute where
  constructor : MethodRef
  arguments : List AttributeValue := []
  named : List NamedArgument := []

inductive SecurityAction
  | request | demand | assert | deny | permitOnly | linkDemand | inheritanceDemand
  | requestMinimum | requestOptional | requestRefuse
  | other (code : UInt16)
  deriving DecidableEq

def SecurityAction.code : SecurityAction → UInt16
  | request => 1
  | demand => 2
  | assert => 3
  | deny => 4
  | permitOnly => 5
  | linkDemand => 6
  | inheritanceDemand => 7
  | requestMinimum => 8
  | requestOptional => 9
  | requestRefuse => 10
  | other code => code

structure SecurityAttribute where
  attributeType : TypeId
  named : List NamedArgument := []

inductive PermissionSet
  /-- Bytes that are written as given. -/
  | raw (bytes : Bytes)
  | attributes (attributes : List SecurityAttribute)

structure SecurityDeclaration where
  action : SecurityAction
  permissionSet : PermissionSet

end Cil
