import Cil.Data
import Cil.Flags
import Cil.Model.Attribute
import Cil.Model.Body

/-!
Members of types: fields, methods, properties and events, with the flags that their rows carry.
-/

namespace Cil

inductive Accessibility
  | isPrivate | privateProtected | internal | isProtected | protectedInternal | isPublic
  deriving DecidableEq

/-- The access bits of fields and methods. -/
def Accessibility.memberMask : Accessibility → Nat
  | isPrivate => 0x1
  | privateProtected => 0x2
  | internal => 0x3
  | isProtected => 0x4
  | protectedInternal => 0x5
  | isPublic => 0x6

inductive CharacterSet | notSpecified | ansi | unicode | auto
  deriving DecidableEq

inductive UnmanagedConvention | platform | cdecl | stdcall | thiscall | fastcall
  deriving DecidableEq

/-- A member that another module exports as native code. -/
structure PlatformInvoke where
  module : ModuleRefId
  importName : String
  noMangle : Bool := false
  characterSet : CharacterSet := .notSpecified
  supportsLastError : Bool := false
  convention : UnmanagedConvention := .platform
  bestFitMapping : Option Bool := none
  throwOnUnmappableChar : Option Bool := none

def PlatformInvoke.flags (p : PlatformInvoke) : UInt16 :=
  let characterSet := match p.characterSet with
    | .notSpecified => 0x0
    | .ansi => 0x2
    | .unicode => 0x4
    | .auto => 0x6
  let convention := match p.convention with
    | .platform => 0x100
    | .cdecl => 0x200
    | .stdcall => 0x300
    | .thiscall => 0x400
    | .fastcall => 0x500
  .ofNat (characterSet + convention + flagMask [
    (p.noMangle, 0x1),
    (p.bestFitMapping == some true, 0x10),
    (p.bestFitMapping == some false, 0x20),
    (p.supportsLastError, 0x40),
    (p.throwOnUnmappableChar == some true, 0x1000),
    (p.throwOnUnmappableChar == some false, 0x2000)])

/-- The bytes that a static field starts with, and the section that holds them. -/
structure InitialValue where
  data : Bytes
  place : DataSection
  deriving DecidableEq

structure FieldDef where
  name : String
  fieldType : TypeSig := Primitive.int32
  accessibility : Accessibility := .isPrivate
  isStatic : Bool := false
  initOnly : Bool := false
  literal : Bool := false
  notSerialized : Bool := false
  specialName : Bool := false
  runtimeSpecialName : Bool := false
  isVolatile : Bool := false
  default : Option Constant := none
  marshal : Option Bytes := none
  offset : Option UInt32 := none
  initialValue : Option InitialValue := none
  platformInvoke : Option PlatformInvoke := none
  attributes : List Attribute := []

def FieldDef.flags (f : FieldDef) : UInt16 :=
  .ofNat (f.accessibility.memberMask + flagMask [
    (f.isStatic, 0x10),
    (f.initOnly, 0x20),
    (f.literal, 0x40),
    (f.notSerialized, 0x80),
    (f.initialValue.isSome, 0x100),
    (f.specialName, 0x200),
    (f.runtimeSpecialName, 0x400),
    (f.marshal.isSome, 0x1000),
    (f.platformInvoke.isSome, 0x2000),
    (f.default.isSome, 0x8000)])

inductive Variance | invariant | covariant | contravariant
  deriving DecidableEq

structure GenericConstraint where
  constraint : TypeSig
  attributes : List Attribute := []

structure GenericParameter where
  name : String
  variance : Variance := .invariant
  referenceType : Bool := false
  valueType : Bool := false
  hasDefaultConstructor : Bool := false
  constraints : List GenericConstraint := []
  attributes : List Attribute := []

def GenericParameter.flags (g : GenericParameter) : UInt16 :=
  .ofNat (flagMask [
    (g.variance == .covariant, 0x1),
    (g.variance == .contravariant, 0x2),
    (g.referenceType, 0x4),
    (g.valueType, 0x8),
    (g.hasDefaultConstructor, 0x10)])

inductive BodyFormat | il | native | runtime
  deriving DecidableEq

structure ImplFlags where
  format : BodyFormat := .il
  unmanaged : Bool := false
  forwardRef : Bool := false
  preserveSig : Bool := false
  internalCall : Bool := false
  isSynchronized : Bool := false
  noInlining : Bool := false
  noOptimization : Bool := false
  aggressiveInlining : Bool := false

def ImplFlags.mask (f : ImplFlags) : UInt16 :=
  let format := match f.format with
    | .il => 0x0
    | .native => 0x1
    | .runtime => 0x3
  .ofNat (format + flagMask [
    (f.unmanaged, 0x4),
    (f.noInlining, 0x8),
    (f.forwardRef, 0x10),
    (f.isSynchronized, 0x20),
    (f.noOptimization, 0x40),
    (f.preserveSig, 0x80),
    (f.aggressiveInlining, 0x100),
    (f.internalCall, 0x1000)])

/-- What is known of a parameter, or of a returned value, beyond its type. -/
structure Parameter where
  name : Option String := none
  isIn : Bool := false
  isOut : Bool := false
  isOptional : Bool := false
  default : Option Constant := none
  marshal : Option Bytes := none
  attributes : List Attribute := []

def Parameter.flags (p : Parameter) : UInt16 :=
  .ofNat (flagMask [
    (p.isIn, 0x1),
    (p.isOut, 0x2),
    (p.isOptional, 0x10),
    (p.default.isSome, 0x1000),
    (p.marshal.isSome, 0x2000)])

structure Method where
  name : String
  signature : MethodSignature := {}
  accessibility : Accessibility := .isPublic
  isSealed : Bool := false
  isVirtual : Bool := false
  hideBySig : Bool := true
  newSlot : Bool := false
  strict : Bool := false
  isAbstract : Bool := false
  specialName : Bool := false
  runtimeSpecialName : Bool := false
  requireSecObject : Bool := false
  implFlags : ImplFlags := {}
  /-- In the order of the signature, and possibly fewer than it has. -/
  parameters : List Parameter := []
  returnInfo : Option Parameter := none
  genericParameters : List GenericParameter := []
  platformInvoke : Option PlatformInvoke := none
  body : Option Body := none
  attributes : List Attribute := []
  security : List SecurityDeclaration := []

namespace Method

def isStatic (m : Method) : Bool := !m.signature.isInstance

/-- An instance constructor without a body. -/
def ofConstructor (parameters : List TypeSig) : Method where
  name := ".ctor"
  signature := { isInstance := true, parameters }
  specialName := true
  runtimeSpecialName := true

def flags (m : Method) : UInt16 :=
  .ofNat (m.accessibility.memberMask + flagMask [
    (m.isStatic, 0x10),
    (m.isSealed, 0x20),
    (m.isVirtual, 0x40),
    (m.hideBySig, 0x80),
    (m.newSlot, 0x100),
    (m.strict, 0x200),
    (m.isAbstract, 0x400),
    (m.specialName, 0x800),
    (m.runtimeSpecialName, 0x1000),
    (m.platformInvoke.isSome, 0x2000),
    (!m.security.isEmpty, 0x4000),
    (m.requireSecObject, 0x8000)])

end Method

structure Property where
  name : String
  propertyType : TypeSig := Primitive.int32
  parameters : List TypeSig := []
  isInstance : Bool := true
  getter : Option MethodId := none
  setter : Option MethodId := none
  other : List MethodId := []
  default : Option Constant := none
  specialName : Bool := false
  runtimeSpecialName : Bool := false
  attributes : List Attribute := []

def Property.flags (p : Property) : UInt16 :=
  .ofNat (flagMask [
    (p.specialName, 0x200),
    (p.runtimeSpecialName, 0x400),
    (p.default.isSome, 0x1000)])

structure Event where
  name : String
  delegateType : TypeSig
  addListener : Option MethodId := none
  removeListener : Option MethodId := none
  raiseEvent : Option MethodId := none
  other : List MethodId := []
  specialName : Bool := false
  runtimeSpecialName : Bool := false
  attributes : List Attribute := []

def Event.flags (e : Event) : UInt16 :=
  .ofNat (flagMask [(e.specialName, 0x200), (e.runtimeSpecialName, 0x400)])

end Cil
