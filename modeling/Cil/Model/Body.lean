import Cil.Model.Reference

/-!
Method bodies as trees of statements and expressions. A branch goes to the first instruction of the
block that carries the name of its target.
-/

namespace Cil

/-- A range of source text. -/
structure SourceSpan where
  document : DocumentId
  startLine : Nat
  startColumn : Nat
  endLine : Nat
  endColumn : Nat
  deriving DecidableEq

structure LocalVariable where
  variableType : TypeSig
  name : Option String := none
  pinned : Bool := false

/-- How a branch is written. -/
inductive BranchForm
  /-- With one byte if that is enough, and four otherwise. -/
  | auto
  /-- With one byte; a distance that does not fit is an error. -/
  | short
  | long
  deriving DecidableEq

inductive Comparison
  | equal | notEqual | less | lessOrEqual | greater | greaterOrEqual
  deriving DecidableEq

inductive BinaryOp
  | add | subtract | multiply | divide | remainder | and | or | xor | shiftLeft | shiftRight
  deriving DecidableEq

inductive UnaryOp | negate | not
  deriving DecidableEq

inductive NumericType
  | int8 | uint8 | int16 | uint16 | int32 | uint32 | int64 | uint64 | intPtr | uintPtr | float32
  | float64
  deriving DecidableEq

inductive Literal
  | null
  | boolean (v : Bool)
  | char (v : UInt16)
  | int32 (v : Int32)
  | int64 (v : Int64)
  | float32 (bits : UInt32)
  | float64 (bits : UInt64)
  | string (v : String)
  deriving DecidableEq

/-- What a handle is loaded of. -/
inductive TokenSource
  | type (t : TypeSig)
  | method (m : MethodRef)
  | field (f : FieldRef)

mutual

inductive Expression
  | literal (v : Literal)
  | variable (index : Nat)
  /-- A parameter by its declared position, which does not count `this`. -/
  | parameter (index : Nat)
  | this
  | load (target : Target)
  | addressOf (target : Target)
  | call (method : MethodRef) (receiver : Option Expression) (arguments : List Expression)
      (isVirtual isTail : Bool) (constrained : Option TypeSig)
  | callIndirect (signature : MethodSignature) (function : Expression)
      (arguments : List Expression)
  | construct (constructor : MethodRef) (arguments : List Expression)
  | newArray (arrayType : TypeSig) (sizes : List Expression)
  | arrayLength (array : Expression)
  | binary (op : BinaryOp) (left right : Expression) (unsigned checked : Bool)
  | unary (op : UnaryOp) (operand : Expression)
  | compare (op : Comparison) (left right : Expression) (unsigned : Bool)
  | conditional (condition : Condition) (ifTrue ifFalse : Expression)
  | convert (result : NumericType) (operand : Expression) (checked unsignedSource : Bool)
  | box (valueType : TypeSig) (operand : Expression)
  | unbox (valueType : TypeSig) (operand : Expression) (addressOnly : Bool)
  | castClass (targetType : TypeSig) (operand : Expression)
  | isInstance (targetType : TypeSig) (operand : Expression)
  | sizeOf (type : TypeSig)
  | token (source : TokenSource)
  /-- The address of a method; with a receiver, of the method that it would run. -/
  | functionPointer (method : MethodRef) (receiver : Option Expression)
  | stackAlloc (size : Expression)

/-- A place that holds a value. -/
inductive Target
  | variable (index : Nat)
  | parameter (index : Nat)
  | field (receiver : Option Expression) (field : FieldRef)
  | element (array : Expression) (arrayType : TypeSig) (indices : List Expression)
  | indirect (address : Expression) (pointee : TypeSig)

inductive Condition
  | isTrue (e : Expression)
  | isFalse (e : Expression)
  /-- Unsigned means unsigned integers or, for floating point, that unordered operands count. -/
  | compare (op : Comparison) (left right : Expression) (unsigned : Bool)

end

mutual

inductive Statement
  | block (b : Block)
  | expression (e : Expression)
  | assign (target : Target) (value : Expression)
  | branch (condition : Option Condition) (target : BlockId) (form : BranchForm)
  | leave (target : BlockId) (form : BranchForm)
  | switch (value : Expression) (targets : List BlockId)
  | exit (value : Option Expression)
  /-- Without a value, throws again what is being handled. -/
  | throwing (value : Option Expression)
  | guarded (body : Block) (handlers : List Handler) (cleanup : Cleanup)
  | initObject (address : Expression) (valueType : TypeSig)
  | sequencePoint (span : SourceSpan)
  | breakpoint
  | nop

/-- A block of statements, with the locals whose scope it is. -/
inductive Block
  | mk (id : BlockId) (statements : List Statement) (locals : List Nat)
      (source : Option SourceSpan)

inductive Handler
  | catching (exceptionType : TypeSig) (into : Option Nat) (block : Block)
  | filtering (into : Option Nat) (filter : Block) (condition : Expression) (block : Block)

/-- What runs when a protected block is left: always, or only by an exception. -/
inductive Cleanup
  | nothing
  | finallyBlock (block : Block)
  | faultBlock (block : Block)

end

structure Body where
  locals : Array LocalVariable := #[]
  initLocals : Bool := false
  root : Block

end Cil
