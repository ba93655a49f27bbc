import Cil.Model.Text

/-!
What can go wrong when a module is written, by cause, and the text of each message.
-/

namespace Cil

/-- A name that nothing in the module answers to. -/
inductive Unresolved
  | type (id : TypeId)
  | field (id : FieldId)
  | method (id : MethodId)
  | document (id : DocumentId)
  | assemblyReference (id : AssemblyRefId)
  | moduleReference (id : ModuleRefId)
  | file (id : FileId)
  | exportedType (id : ExportedTypeId)
  /-- A type that was never bound to an assembly or module. -/
  | scope (typeName : String)
  | coreLibrary (primitive : Primitive)
  | volatileModifier (field : String)
  | entryPoint (id : MethodId)

def Unresolved.reason : Unresolved → String
  | type id => s!"type {id.text} is not in the module"
  | field id => s!"field {id.text} is not in the module"
  | method id => s!"method {id.text} is not in the module"
  | document id => s!"document {id.text} is not in the module"
  | assemblyReference id => s!"assembly reference {id.index} is out of range"
  | moduleReference id => s!"module reference {id.index} is out of range"
  | file id => s!"file {id.index} is out of range"
  | exportedType id => s!"exported type {id.index} is out of range"
  | scope typeName => s!"type {typeName} has no resolution scope"
  | coreLibrary primitive => s!"System.{primitive.systemName} needs a core library reference"
  | volatileModifier name => s!"volatile field {name} needs the IsVolatile modifier type"
  | entryPoint id => s!"entry point {id.text} is not a defined method"

/-- A module that contradicts itself. -/
inductive Violation
  | globalsFirst
  /-- Types whose chain of declaring types does not end at a defined type. -/
  | detachedTypes (count : Nat)
  | parameterCount (method : String) (described declared : Nat)
  | definedType (name : String)
  | nestedInDefined (name : String)
  | cyclicNesting (name : String)
  | unlistedType (id : TypeId)
  | unlistedField (id : FieldId)
  | unlistedMethod (id : MethodId)
  | genericConstructor

def Violation.reason : Violation → String
  | globalsFirst => "the first type must be the defined <Module> type"
  | detachedTypes count =>
    s!"{count} defined types are nested in external types or in a cycle"
  | parameterCount method described declared =>
    s!"method {method} describes {described} parameters but its signature has {declared}"
  | definedType name => s!"type {name} is defined in this module"
  | nestedInDefined name => s!"external type {name} is nested in a defined type"
  | cyclicNesting name => s!"external type {name} is nested in itself"
  | unlistedType id => s!"type {id.text} was not discovered"
  | unlistedField id => s!"field {id.text} was not discovered"
  | unlistedMethod id => s!"method {id.text} was not discovered"
  | genericConstructor => "attribute constructors cannot be generic methods"

/-- A statement or expression that has no code. -/
inductive BodyFault
  | noCode
  | placedTwice (block : BlockId)
  | entersRegion (target : BlockId)
  | crossesRegion (target : BlockId)
  | variableRange (index : Nat)
  | parameterRange (index : Nat)
  | thisInStatic
  | noIndices
  | indexCount
  | notAnArray
  | arrayCreation
  | staticFieldOnInstance (field : String)
  | instanceFieldAlone (field : String)
  | argumentCount (method : String) (given expected : Nat)
  | receiverMissing (method : String)
  | receiverGiven (method : String)
  | constructorArguments (given expected : Nat)
  | noHandlers
  | returnInRegion
  | returnsValue
  | returnsNothing
  | rethrow
  | endReached

def BodyFault.reason : BodyFault → String
  | noCode => "method cannot carry an IL body"
  | placedTwice block => s!"Block({block.text}) is placed twice"
  | entersRegion target => s!"leave to {target.text} enters a protected region"
  | crossesRegion target => s!"branch to {target.text} crosses a protected region, use leave"
  | variableRange index => s!"local {index} is out of range"
  | parameterRange index => s!"parameter {index} is out of range"
  | thisInStatic => "`this` used in a static method"
  | noIndices => "element access without indices"
  | indexCount => "index count does not match the array rank"
  | notAnArray => "element access on a non-array type"
  | arrayCreation => "array creation does not match the array type"
  | staticFieldOnInstance field => s!"static field {field} accessed through an instance"
  | instanceFieldAlone field => s!"instance field {field} accessed without a target"
  | argumentCount method given expected =>
    s!"call to {method} passes {given} arguments, expected {expected}"
  | receiverMissing method => s!"instance call to {method} without a target"
  | receiverGiven method => s!"static call to {method} with a target"
  | constructorArguments given expected =>
    s!"constructor call passes {given} arguments, expected {expected}"
  | noHandlers => "try statement without handlers"
  | returnInRegion => "return inside a protected region, use leave"
  | returnsValue => "void method returns a value"
  | returnsNothing => "return without a value"
  | rethrow => "rethrow outside of a catch handler"
  | endReached => "control reaches the end of a method that returns a value"

/-- A value that its place in the format has no room or no form for. -/
inductive Excess
  | compressed (value : Nat)
  | argument (value : AttributeValue) (declared : TypeSig)
  | typeName (t : TypeSig)
  | argumentType (t : TypeSig)
  | argumentTypeName (name : String)
  | notEnumeration (name : String)
  | enumerationValue (value : AttributeValue) (name : String)
  | attributeArguments (declared given : Nat)
  | namedArguments (count : Nat)

def Excess.reason : Excess → String
  | compressed value => s!"{value} does not fit in a compressed integer"
  | argument value declared => s!"{value.text} cannot be written as a {declared.text} argument"
  | typeName t => s!"{t.text} has no serialized type name"
  | argumentType t => s!"{t.text} cannot be used as a custom attribute argument type"
  | argumentTypeName name => s!"{name} cannot be used as a custom attribute argument type"
  | notEnumeration name => s!"{name} is not an enum"
  | enumerationValue value name => s!"{value.text} is not a valid value of enum {name}"
  | attributeArguments declared given =>
    s!"attribute constructor takes {declared} arguments, {given} given"
  | namedArguments count => s!"{count} named arguments"

inductive Error
  | unresolved (cause : Unresolved)
  | violation (cause : Violation)
  | branchOutOfRange (offset : Int)
  | unplacedTarget (target : BlockId)
  | invalidBody (method : String) (fault : BodyFault)
  | excess (cause : Excess)
  | encoding (cause : EncodingError)
  | keyFileNotFound (path : String)
  | signing (reason : String)
  | symbols (reason : String)

namespace Error

/-- The text of an error; some encoding errors have none. -/
def message? : Error → Option String
  | unresolved cause => some ("unresolved reference: " ++ cause.reason)
  | violation cause => some ("invariant violation: " ++ cause.reason)
  | branchOutOfRange offset => some s!"branch offset {offset} does not fit in a short branch"
  | unplacedTarget target =>
    some s!"branch target {target.text} is never placed in the method body"
  | invalidBody method fault => some s!"invalid body for method {method}: {fault.reason}"
  | excess cause => some ("encoding capacity exceeded: " ++ cause.reason)
  | encoding cause => cause.message?.map ("binary encoding: " ++ ·)
  | keyFileNotFound path => some s!"key file {path} not found"
  | signing reason => some ("assembly could not be signed: " ++ reason)
  | symbols reason => some ("debug symbols could not be written: " ++ reason)

end Error
end Cil
