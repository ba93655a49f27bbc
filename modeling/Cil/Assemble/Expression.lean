import Cil.Assemble.Draft

/-!
Code of expressions: an expression leaves its value on the stack, above what was there.
-/

namespace Cil
namespace Compile

variable (ctx : BodyContext)

/-- The slot of a local. -/
def localSlot (index : Nat) : Compile Nat :=
  if index < ctx.locals.size && index ≤ 0xFFFF then return index
  else fault ctx (.variableRange index)

/-- The slot of a parameter; `this` has the first one. -/
def parameterSlot (index : Nat) : Compile Nat :=
  let signature := ctx.method.signature
  let slot := index + signature.isInstance.toNat
  if signature.parameters.length ≤ index || 0xFFFF < slot then fault ctx (.parameterRange index)
  else return slot

/-- An instruction on a slot. Some have opcodes of their own for the first four slots. -/
def slotOp (slot : Nat) (first : Option Opcode) (short long : Opcode) : Compile Unit :=
  match first, decide (slot ≤ 3) with
  | some first, true => op (first.plus slot)
  | _, _ =>
    if slot ≤ 0xFF then opWith short [.ofNat slot]
    else opWith long (.le 2 slot)

def loadLocal (index : Nat) : Compile Unit := do
  slotOp (← localSlot ctx index) (some .ldloc_0) .ldloc_s .ldloc
  raise 1

def storeLocal (index : Nat) : Compile Unit := do
  slotOp (← localSlot ctx index) (some .stloc_0) .stloc_s .stloc
  lower 1

def loadParameter (index : Nat) : Compile Unit := do
  slotOp (← parameterSlot ctx index) (some .ldarg_0) .ldarg_s .ldarg
  raise 1

/-- The shortest instruction that loads an integer. -/
def int32Op (v : Int32) : Instruction :=
  if v = -1 then .simple .ldc_i4_m1 []
  else if 0 ≤ v ∧ v ≤ 8 then .simple (Opcode.ldc_i4_0.plus v.toNatClampNeg) []
  else if -128 ≤ v ∧ v ≤ 127 then .simple .ldc_i4_s [v.toUInt32.toUInt8]
  else .simple .ldc_i4 (.le 4 v.toUInt32.toNat)

def loadInt32 (v : Int32) : Compile Unit := do
  instruction (int32Op v)
  raise 1

def literal : Literal → Compile Unit
  | .null => do op .ldnull; raise 1
  | .boolean v => loadInt32 (if v then 1 else 0)
  | .char v => loadInt32 v.toUInt32.toInt32
  | .int32 v => loadInt32 v
  | .int64 v =>
    if v.toInt32.toInt64 = v then do
      loadInt32 v.toInt32
      op .conv_i8
    else do
      opWith .ldc_i8 (.le 8 v.toUInt64.toNat)
      raise 1
  | .float32 bits => do opWith .ldc_r4 (.le 4 bits.toNat); raise 1
  | .float64 bits => do opWith .ldc_r8 (.le 8 bits.toNat); raise 1
  | .string v => do
    opToken .ldstr (.userString (← emit (Emit.userString v)))
    raise 1

/-- Whether the values of a type are references to objects. -/
def isReference (t : TypeSig) : Compile Bool :=
  match t.unmodified with
  | .primitive .object | .primitive .string | .vector _ | .array .. => return true
  | .named id | .generic id _ => return !(← emit (isValueType ctx.source id))
  | _ => return false

def loadElementOp? : TypeSig → Option Opcode
  | .primitive .boolean | .primitive .uint8 => some .ldelem_u1
  | .primitive .int8 => some .ldelem_i1
  | .primitive .int16 => some .ldelem_i2
  | .primitive .char | .primitive .uint16 => some .ldelem_u2
  | .primitive .int32 => some .ldelem_i4
  | .primitive .uint32 => some .ldelem_u4
  | .primitive .int64 | .primitive .uint64 => some .ldelem_i8
  | .primitive .intPtr | .primitive .uintPtr => some .ldelem_i
  | .primitive .float32 => some .ldelem_r4
  | .primitive .float64 => some .ldelem_r8
  | _ => none

def storeElementOp? : TypeSig → Option Opcode
  | .primitive .boolean | .primitive .int8 | .primitive .uint8 => some .stelem_i1
  | .primitive .char | .primitive .int16 | .primitive .uint16 => some .stelem_i2
  | .primitive .int32 | .primitive .uint32 => some .stelem_i4
  | .primitive .int64 | .primitive .uint64 => some .stelem_i8
  | .primitive .intPtr | .primitive .uintPtr => some .stelem_i
  | .primitive .float32 => some .stelem_r4
  | .primitive .float64 => some .stelem_r8
  | _ => none

def loadIndirectOp? : TypeSig → Option Opcode
  | .primitive .boolean | .primitive .uint8 => some .ldind_u1
  | .primitive .int8 => some .ldind_i1
  | .primitive .int16 => some .ldind_i2
  | .primitive .char | .primitive .uint16 => some .ldind_u2
  | .primitive .int32 => some .ldind_i4
  | .primitive .uint32 => some .ldind_u4
  | .primitive .int64 | .primitive .uint64 => some .ldind_i8
  | .primitive .intPtr | .primitive .uintPtr | .pointer _ | .functionPointer .. => some .ldind_i
  | .primitive .float32 => some .ldind_r4
  | .primitive .float64 => some .ldind_r8
  | _ => none

def storeIndirectOp? : TypeSig → Option Opcode
  | .primitive .boolean | .primitive .int8 | .primitive .uint8 => some .stind_i1
  | .primitive .char | .primitive .int16 | .primitive .uint16 => some .stind_i2
  | .primitive .int32 | .primitive .uint32 => some .stind_i4
  | .primitive .int64 | .primitive .uint64 => some .stind_i8
  | .primitive .intPtr | .primitive .uintPtr | .pointer _ | .functionPointer .. => some .stind_i
  | .primitive .float32 => some .stind_r4
  | .primitive .float64 => some .stind_r8
  | _ => none

/-- The instruction that a type has of its own, that for references, or that with the type's token. -/
def typedOp (own? : TypeSig → Option Opcode) (reference general : Opcode) (t : TypeSig) :
    Compile Unit := do
  match own? t.unmodified with
  | some own => op own
  | none => if ← isReference ctx t then op reference else opType ctx general t

def binaryOp (op : BinaryOp) (unsigned checked : Bool) : Opcode :=
  match op, checked, unsigned with
  | .add, false, _ => .add
  | .add, true, false => .add_ovf
  | .add, true, true => .add_ovf_un
  | .subtract, false, _ => .sub
  | .subtract, true, false => .sub_ovf
  | .subtract, true, true => .sub_ovf_un
  | .multiply, false, _ => .mul
  | .multiply, true, false => .mul_ovf
  | .multiply, true, true => .mul_ovf_un
  | .divide, _, false => .div
  | .divide, _, true => .div_un
  | .remainder, _, false => .rem
  | .remainder, _, true => .rem_un
  | .and, _, _ => .and
  | .or, _, _ => .or
  | .xor, _, _ => .xor
  | .shiftLeft, _, _ => .shl
  | .shiftRight, _, false => .shr
  | .shiftRight, _, true => .shr_un

def unaryOp : UnaryOp → Opcode
  | .negate => .neg
  | .not => .not

/-- The instructions of a conversion. Unsigned integers become floating point in two steps. -/
def convertOps (result : NumericType) (checked unsignedSource : Bool) : List Opcode :=
  match result, checked, unsignedSource with
  | .float32, _, false => [.conv_r4]
  | .float32, _, true => [.conv_r_un, .conv_r4]
  | .float64, _, false => [.conv_r8]
  | .float64, _, true => [.conv_r_un, .conv_r8]
  | .int8, false, _ => [.conv_i1]
  | .uint8, false, _ => [.conv_u1]
  | .int16, false, _ => [.conv_i2]
  | .uint16, false, _ => [.conv_u2]
  | .int32, false, _ => [.conv_i4]
  | .uint32, false, _ => [.conv_u4]
  | .int64, false, _ => [.conv_i8]
  | .uint64, false, _ => [.conv_u8]
  | .intPtr, false, _ => [.conv_i]
  | .uintPtr, false, _ => [.conv_u]
  | .int8, true, false => [.conv_ovf_i1]
  | .uint8, true, false => [.conv_ovf_u1]
  | .int16, true, false => [.conv_ovf_i2]
  | .uint16, true, false => [.conv_ovf_u2]
  | .int32, true, false => [.conv_ovf_i4]
  | .uint32, true, false => [.conv_ovf_u4]
  | .int64, true, false => [.conv_ovf_i8]
  | .uint64, true, false => [.conv_ovf_u8]
  | .intPtr, true, false => [.conv_ovf_i]
  | .uintPtr, true, false => [.conv_ovf_u]
  | .int8, true, true => [.conv_ovf_i1_un]
  | .uint8, true, true => [.conv_ovf_u1_un]
  | .int16, true, true => [.conv_ovf_i2_un]
  | .uint16, true, true => [.conv_ovf_u2_un]
  | .int32, true, true => [.conv_ovf_i4_un]
  | .uint32, true, true => [.conv_ovf_u4_un]
  | .int64, true, true => [.conv_ovf_i8_un]
  | .uint64, true, true => [.conv_ovf_u8_un]
  | .intPtr, true, true => [.conv_ovf_i_un]
  | .uintPtr, true, true => [.conv_ovf_u_un]

/-- The instruction that compares two values, and whether its answer has to be inverted. -/
def compareOp (op : Comparison) (unsigned : Bool) : Opcode × Bool :=
  match op, unsigned with
  | .equal, _ => (.ceq, false)
  | .notEqual, _ => (.ceq, true)
  | .less, false => (.clt, false)
  | .less, true => (.clt_un, false)
  | .greater, false => (.cgt, false)
  | .greater, true => (.cgt_un, false)
  | .lessOrEqual, false => (.cgt, true)
  | .lessOrEqual, true => (.cgt_un, true)
  | .greaterOrEqual, false => (.clt, true)
  | .greaterOrEqual, true => (.clt_un, true)

def negate : Comparison → Comparison
  | .equal => .notEqual
  | .notEqual => .equal
  | .less => .greaterOrEqual
  | .lessOrEqual => .greater
  | .greater => .lessOrEqual
  | .greaterOrEqual => .less

/-- Compares the two values on the stack. -/
def compareValues (comparison : Comparison) (unsigned : Bool) : Compile Unit := do
  let (compare, inverted) := compareOp comparison unsigned
  op compare
  lower 2
  raise 1
  if inverted then
    loadInt32 0
    op .ceq
    lower 1

/-- The element type of an array that is accessed with some indices, and the rank if the array is
no vector. -/
def elementType (arrayType : TypeSig) (indices : Nat) : Compile (TypeSig × Option Nat) :=
  if indices = 0 then fault ctx .noIndices
  else
    match arrayType.unmodified with
    | .vector element =>
      if indices = 1 then return (element, none) else fault ctx .indexCount
    | .array element shape =>
      if indices = shape.rank then return (element, some shape.rank) else fault ctx .indexCount
    | _ => fault ctx .notAnArray

/-- Calls a method of an array type that takes the indices and perhaps a value. -/
def callArray (arrayType : TypeSig) (name : String) (returnType : TypeSig) (rank : Nat)
    (value : List TypeSig) : Compile Unit := do
  let parameters := List.replicate rank (.primitive .int32) ++ value
  let token ← emit (arrayMethod ctx.source arrayType name
    { isInstance := true, returnType, parameters })
  opToken .call token

/-- Whether a field is static, and its token. -/
def fieldAccess (r : FieldRef) (hasReceiver : Bool) : Compile (Bool × Token) := do
  let f ← emit (Emit.ofExcept (ctx.source.module.fieldDef r.field))
  let token ← emit (fieldToken ctx.source r)
  match f.isStatic, hasReceiver with
  | true, true => fault ctx (.staticFieldOnInstance f.name)
  | false, false => fault ctx (.instanceFieldAlone f.name)
  | _, _ => return (f.isStatic, token)

/-- The signature of a method, if a call passes what it takes. -/
def calledSignature (r : MethodRef) (hasReceiver : Bool) (arguments : Nat) :
    Compile MethodSignature := do
  let m ← emit (Emit.ofExcept (ctx.source.module.methodDef r.method))
  let expected := m.signature.parameters.length + r.varArgTypes.length
  if arguments ≠ expected then fault ctx (.argumentCount m.name arguments expected)
  match m.signature.isInstance, hasReceiver with
  | true, false => fault ctx (.receiverMissing m.name)
  | false, true => fault ctx (.receiverGiven m.name)
  | _, _ => return m.signature

/-- A call takes its operands and leaves the value that is returned. -/
def finishCall (operands : Nat) (s : MethodSignature) : Compile Unit := do
  lower operands
  unless s.returnsVoid do raise 1

/-- The call itself, when its operands are on the stack. -/
def callOp (r : MethodRef) (isVirtual isTail : Bool) (constrained : Option TypeSig) :
    Compile Unit := do
  let token ← emit (methodToken ctx.source r)
  if let some t := constrained then opType ctx .constrained t
  if isTail then op .tail
  opToken (if isVirtual || constrained.isSome then .callvirt else .call) token

def checkConstructor (r : MethodRef) (arguments : Nat) : Compile Unit := do
  let m ← emit (Emit.ofExcept (ctx.source.module.methodDef r.method))
  let expected := m.signature.parameters.length
  if arguments ≠ expected then fault ctx (.constructorArguments arguments expected)

def checkArrayCreation (arrayType : TypeSig) (sizes : Nat) : Compile Unit :=
  match arrayType.unmodified with
  | .vector _ => if sizes = 1 then return () else fault ctx .arrayCreation
  | .array _ shape => if sizes = shape.rank then return () else fault ctx .arrayCreation
  | _ => fault ctx .arrayCreation

/-- Creates an array whose sizes are on the stack. -/
def createArray (arrayType : TypeSig) (sizes : Nat) : Compile Unit := do
  match arrayType.unmodified with
  | .vector element => opType ctx .newarr element
  | _ =>
    let parameters := List.replicate sizes (.primitive .int32)
    let token ← emit (arrayMethod ctx.source arrayType ".ctor" { isInstance := true, parameters })
    opToken .newobj token
  lower sizes
  raise 1

def loadElement (arrayType element : TypeSig) (rank : Option Nat) : Compile Unit :=
  match rank with
  | none => typedOp ctx loadElementOp? .ldelem_ref .ldelem element
  | some rank => callArray ctx arrayType "Get" element rank []

def storeElement (arrayType element : TypeSig) (rank : Option Nat) : Compile Unit :=
  match rank with
  | none => typedOp ctx storeElementOp? .stelem_ref .stelem element
  | some rank => callArray ctx arrayType "Set" (.primitive .void) rank [element]

def elementAddress (arrayType element : TypeSig) (rank : Option Nat) : Compile Unit :=
  match rank with
  | none => opType ctx .ldelema element
  | some rank => callArray ctx arrayType "Address" (.reference element) rank []

def tokenOf : TokenSource → Compile Token
  | .type t => return (← emit (typeToken ctx.source t)).token
  | .method r => emit (methodToken ctx.source r)
  | .field r => emit (fieldToken ctx.source r)

/-- The address of a method, of which the receiver may be on the stack. -/
def functionPointerOp (token : Token) (hasReceiver : Bool) : Compile Unit :=
  if hasReceiver then opToken .ldvirtftn token
  else do
    opToken .ldftn token
    raise 1

mutual

def expression : Expression → Compile Unit
  | .literal v => literal v
  | .variable index => loadLocal ctx index
  | .parameter index => loadParameter ctx index
  | .this => do
    if ctx.method.isStatic then fault ctx .thisInStatic
    op .ldarg_0
    raise 1
  | .load target => load target
  | .addressOf target => addressOf target
  | .call method object arguments isVirtual isTail constrained => do
    let s ← calledSignature ctx method object.isSome arguments.length
    receiver object
    expressions arguments
    callOp ctx method isVirtual isTail constrained
    finishCall (arguments.length + s.isInstance.toNat) s
  | .callIndirect s function arguments => do
    expressions arguments
    expression function
    let blob ← emit (methodBlob ctx.source s 0 [])
    opToken .calli (← emit (standAloneSig blob))
    finishCall (arguments.length + 1) s
  | .construct constructor arguments => do
    checkConstructor ctx constructor arguments.length
    expressions arguments
    opToken .newobj (← emit (methodToken ctx.source constructor))
    lower arguments.length
    raise 1
  | .newArray arrayType sizes => do
    checkArrayCreation ctx arrayType sizes.length
    expressions sizes
    createArray ctx arrayType sizes.length
  | .arrayLength array => do
    expression array
    op .ldlen
    op .conv_i4
  | .binary operator left right unsigned checked => do
    expression left
    expression right
    op (binaryOp operator unsigned checked)
    lower 1
  | .unary operator operand => do
    expression operand
    op (unaryOp operator)
  | .compare comparison left right unsigned => do
    expression left
    expression right
    compareValues comparison unsigned
  | .conditional test ifTrue ifFalse => do
    let otherwise ← newLabel
    let behind ← newLabel
    condition otherwise .auto false test
    let before ← height
    expression ifTrue
    branch .always behind .auto
    setHeight before
    place otherwise
    expression ifFalse
    place behind
  | .convert result operand checked unsignedSource => do
    expression operand
    (convertOps result checked unsignedSource).forM op
  | .box valueType operand => do
    expression operand
    opType ctx .box valueType
  | .unbox valueType operand addressOnly => do
    expression operand
    opType ctx (if addressOnly then .unbox else .unbox_any) valueType
  | .castClass targetType operand => do
    expression operand
    opType ctx .castclass targetType
  | .isInstance targetType operand => do
    expression operand
    opType ctx .isinst targetType
  | .sizeOf t => do
    opType ctx .sizeof t
    raise 1
  | .token source => do
    opToken .ldtoken (← tokenOf ctx source)
    raise 1
  | .functionPointer method object => do
    let token ← emit (methodToken ctx.source method)
    receiver object
    functionPointerOp token object.isSome
  | .stackAlloc size => do
    expression size
    op .localloc

def expressions : List Expression → Compile Unit
  | [] => return ()
  | e :: rest => do
    expression e
    expressions rest

def receiver : Option Expression → Compile Unit
  | none => return ()
  | some e => expression e

def load : Target → Compile Unit
  | .variable index => loadLocal ctx index
  | .parameter index => loadParameter ctx index
  | .field object f => do
    let (isStatic, token) ← fieldAccess ctx f object.isSome
    receiver object
    if isStatic then
      opToken .ldsfld token
    else
      opToken .ldfld token
      lower 1
    raise 1
  | .element array arrayType indices => do
    let (element, rank) ← elementType ctx arrayType indices.length
    expression array
    expressions indices
    loadElement ctx arrayType element rank
    lower (1 + indices.length)
    raise 1
  | .indirect address pointee => do
    expression address
    typedOp ctx loadIndirectOp? .ldind_ref .ldobj pointee

def addressOf : Target → Compile Unit
  | .variable index => do
    slotOp (← localSlot ctx index) none .ldloca_s .ldloca
    raise 1
  | .parameter index => do
    slotOp (← parameterSlot ctx index) none .ldarga_s .ldarga
    raise 1
  | .field object f => do
    let (isStatic, token) ← fieldAccess ctx f object.isSome
    receiver object
    if isStatic then
      opToken .ldsflda token
    else
      opToken .ldflda token
      lower 1
    raise 1
  | .element array arrayType indices => do
    let (element, rank) ← elementType ctx arrayType indices.length
    expression array
    expressions indices
    elementAddress ctx arrayType element rank
    lower (1 + indices.length)
    raise 1
  | .indirect address _ => expression address

/-- Goes to the target if the condition holds, or if it does not. -/
def condition (target : Label) (form : BranchForm) (holds : Bool) : Condition → Compile Unit
  | .isTrue e => do
    expression e
    lower 1
    branch (if holds then .ifTrue else .ifFalse) target form
  | .isFalse e => do
    expression e
    lower 1
    branch (if holds then .ifFalse else .ifTrue) target form
  | .compare comparison left right unsigned => do
    expression left
    expression right
    lower 2
    branch (.compare (if holds then comparison else negate comparison) unsigned) target form

end

/-- Puts a value in a place. -/
def store (target : Target) (value : Expression) : Compile Unit :=
  match target with
  | .variable index => do
    expression ctx value
    storeLocal ctx index
  | .parameter index => do
    let slot ← parameterSlot ctx index
    expression ctx value
    slotOp slot none .starg_s .starg
    lower 1
  | .field object f => do
    let (isStatic, token) ← fieldAccess ctx f object.isSome
    receiver ctx object
    expression ctx value
    if isStatic then
      opToken .stsfld token
      lower 1
    else
      opToken .stfld token
      lower 2
  | .element array arrayType indices => do
    let (element, rank) ← elementType ctx arrayType indices.length
    expression ctx array
    expressions ctx indices
    expression ctx value
    storeElement ctx arrayType element rank
    lower (2 + indices.length)
  | .indirect address pointee => do
    expression ctx address
    expression ctx value
    typedOp ctx storeIndirectOp? .stind_ref .stobj pointee
    lower 2

end Compile
end Cil
