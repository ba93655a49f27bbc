import Cil.Model.Member

/-!
Types of a module: those that it defines and those that it refers to.
-/

namespace Cil

inductive TypeKind | classType | interface | struct | enum | delegate
  deriving DecidableEq

def TypeKind.isValueType : TypeKind → Bool
  | struct | enum => true
  | _ => false

inductive TypeAccessibility
  | notPublic
  | isPublic
  | nested (accessibility : Accessibility)
  deriving DecidableEq

inductive Layout | automatic | sequential | explicit
  deriving DecidableEq

inductive StringFormatting | ansi | unicode | automatic
  deriving DecidableEq

structure TypeFlags where
  accessibility : TypeAccessibility := .notPublic
  layout : Layout := .automatic
  isAbstract : Bool := false
  isSealed : Bool := false
  specialName : Bool := false
  runtimeSpecialName : Bool := false
  imported : Bool := false
  serializable : Bool := false
  stringFormatting : StringFormatting := .ansi
  beforeFieldInit : Bool := false

namespace TypeFlags

def visibility (f : TypeFlags) : Nat :=
  match f.accessibility with
  | .notPublic => 0x0
  | .isPublic => 0x1
  | .nested .isPublic => 0x2
  | .nested .isPrivate => 0x3
  | .nested .isProtected => 0x4
  | .nested .internal => 0x5
  | .nested .privateProtected => 0x6
  | .nested .protectedInternal => 0x7

/-- Interfaces are abstract, value types and delegates sealed, whatever their flags say. -/
def mask (f : TypeFlags) (kind : TypeKind) (hasSecurity : Bool) : UInt32 :=
  .ofNat (f.visibility + flagMask [
    (f.layout == .sequential, 0x8),
    (f.layout == .explicit, 0x10),
    (kind == .interface, 0x20),
    (f.isAbstract || kind == .interface, 0x80),
    (f.isSealed || kind.isValueType || kind == .delegate, 0x100),
    (f.specialName, 0x400),
    (f.runtimeSpecialName, 0x800),
    (f.imported, 0x1000),
    (f.serializable, 0x2000),
    (f.stringFormatting == .unicode, 0x10000),
    (f.stringFormatting == .automatic, 0x20000),
    (hasSecurity, 0x40000),
    (f.beforeFieldInit, 0x100000)])

end TypeFlags

/-- Where a type is defined. -/
inductive TypeScope
  | defined
  /-- In another assembly. A nested type carries the scope of its outermost enclosing type. -/
  | assembly (reference : AssemblyRefId)
  | module (reference : ModuleRefId)
  /-- Never bound; the first use is an error. -/
  | unresolved
  deriving DecidableEq

structure InterfaceImplementation where
  interface : TypeSig
  attributes : List Attribute := []

structure MethodOverride where
  implementation : MethodRef
  declaration : MethodRef

structure ClassLayout where
  packingSize : UInt16
  classSize : UInt32

structure TypeInfo where
  name : String
  typeNamespace : Option String := none
  kind : TypeKind := .classType
  flags : TypeFlags := {}
  scope : TypeScope := .defined
  declaringType : Option TypeId := none
  base : Option TypeSig := none
  interfaces : List InterfaceImplementation := []
  genericParameters : List GenericParameter := []
  fields : Array FieldDef := #[]
  methods : Array Method := #[]
  properties : Array Property := #[]
  events : Array Event := #[]
  overrides : List MethodOverride := []
  classLayout : Option ClassLayout := none
  attributes : List Attribute := []
  security : List SecurityDeclaration := []

namespace TypeInfo

def isDefined (t : TypeInfo) : Bool := t.scope == .defined

/-- The name behind its namespace. -/
def fullName (t : TypeInfo) : String :=
  match t.typeNamespace with
  | some ns => if ns.isEmpty then t.name else ns ++ "." ++ t.name
  | none => t.name

def flagMask (t : TypeInfo) : UInt32 := t.flags.mask t.kind (!t.security.isEmpty)

end TypeInfo
end Cil
