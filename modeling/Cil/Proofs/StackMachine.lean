import Cil.Proofs.Evaluation
import Cil.Proofs.WellFormedCode
import Mathlib.Logic.Function.Basic
import Mathlib.Logic.Relation

/-!
A machine that runs code. It has a stack, and slots for the locals and the arguments of a method; its
instructions are those on 32-bit integers and slots, with the branches in both their forms. It reads the
code byte by byte and knows nothing of how it was written.
-/

namespace Cil
namespace Machine

/-- The locals and the arguments of a method. Of an instance method, `this` is the first argument. -/
structure Slots where
  locals : Nat → Value
  arguments : Nat → Value

namespace Slots

def environment (slots : Slots) (isInstance : Bool) : Environment Value where
  locals := slots.locals
  parameters index := slots.arguments (index + isInstance.toNat)
  this := slots.arguments 0

def setLocal (slots : Slots) (index : Nat) (v : Value) : Slots :=
  { slots with locals := Function.update slots.locals index v }

def setArgument (slots : Slots) (index : Nat) (v : Value) : Slots :=
  { slots with arguments := Function.update slots.arguments index v }

end Slots

structure State where
  offset : Nat
  stack : List Value
  slots : Slots

/-- What an instruction does that goes on to the next one. -/
inductive Effect
  | load (read : Bytes → Slots → Value)
  | store (write : Bytes → Slots → Value → Slots)
  | unary (f : BitVec 32 → BitVec 32)
  | binary (f : BitVec 32 → BitVec 32 → BitVec 32)
  | compare (f : BitVec 32 → BitVec 32 → Bool)

def Effect.apply (operand : Bytes) : Effect → List Value → Slots → Option (List Value × Slots)
  | load read, stack, slots => some (read operand slots :: stack, slots)
  | store write, v :: stack, slots => some (stack, write operand slots v)
  | unary f, .int32 a :: stack, slots => some (.int32 (f a) :: stack, slots)
  | binary f, .int32 b :: .int32 a :: stack, slots => some (.int32 (f a b) :: stack, slots)
  | compare f, .int32 b :: .int32 a :: stack, slots => some (.ofBool (f a b) :: stack, slots)
  | _, _, _ => none

def loadInt (n : Int) : Effect := .load fun _ _ => .int32 (.ofInt 32 n)

/-- The instructions that name their slot or their number, by its place in a row of opcodes. -/
def rows : List (Opcode × Effect) :=
  (List.range 4).map (fun n => (Opcode.ldarg_0.plus n, .load fun _ slots => slots.arguments n)) ++
  (List.range 4).map (fun n => (Opcode.ldloc_0.plus n, .load fun _ slots => slots.locals n)) ++
  (List.range 4).map (fun n => (Opcode.stloc_0.plus n, .store fun _ slots => slots.setLocal n)) ++
  (List.range 9).map (fun n => (Opcode.ldc_i4_0.plus n, loadInt n))

def effects (beyond : Shift.Beyond) : List (Opcode × Effect) :=
  rows ++
  [(.ldarg_s, .load fun operand slots => slots.arguments operand.ofLe),
    (.ldarg, .load fun operand slots => slots.arguments operand.ofLe),
    (.ldloc_s, .load fun operand slots => slots.locals operand.ofLe),
    (.ldloc, .load fun operand slots => slots.locals operand.ofLe),
    (.starg_s, .store fun operand slots => slots.setArgument operand.ofLe),
    (.starg, .store fun operand slots => slots.setArgument operand.ofLe),
    (.stloc_s, .store fun operand slots => slots.setLocal operand.ofLe),
    (.stloc, .store fun operand slots => slots.setLocal operand.ofLe),
    (.ldc_i4_m1, loadInt (-1)),
    (.ldc_i4_s, .load fun operand _ => .int32 (.ofInt 32 operand.toInt)),
    (.ldc_i4, .load fun operand _ => .int32 (.ofInt 32 operand.toInt)),
    (.add, .binary (· + ·)),
    (.sub, .binary (· - ·)),
    (.mul, .binary (· * ·)),
    (.and, .binary (· &&& ·)),
    (.or, .binary (· ||| ·)),
    (.xor, .binary (· ^^^ ·)),
    (.shl, .binary (Shift.left.apply beyond)),
    (.shr, .binary (Shift.right.apply beyond)),
    (.shr_un, .binary (Shift.rightUnsigned.apply beyond)),
    (.neg, .unary (- ·)),
    (.not, .unary (~~~ ·)),
    (.ceq, .compare fun a b => a == b),
    (.cgt, .compare fun a b => b.slt a),
    (.cgt_un, .compare fun a b => b.ult a),
    (.clt, .compare fun a b => a.slt b),
    (.clt_un, .compare fun a b => a.ult b)]

/-- What decides whether a branch is taken. -/
inductive Test
  | always
  | truth (expected : Bool)
  | compare (f : BitVec 32 → BitVec 32 → Bool)

def Test.apply : Test → List Value → Option (Bool × List Value)
  | always, stack => some (true, stack)
  | truth expected, v :: stack => some (v.isTrue == expected, stack)
  | compare f, .int32 b :: .int32 a :: stack => some (f a b, stack)
  | _, _ => none

def tests : List (Opcode × Opcode × Test) :=
  [(.br, .br_s, .always),
    (.brtrue, .brtrue_s, .truth true),
    (.brfalse, .brfalse_s, .truth false),
    (.beq, .beq_s, .compare fun a b => a == b),
    (.bne_un, .bne_un_s, .compare fun a b => a != b),
    (.blt, .blt_s, .compare fun a b => a.slt b),
    (.blt_un, .blt_un_s, .compare fun a b => a.ult b),
    (.ble, .ble_s, .compare fun a b => a.sle b),
    (.ble_un, .ble_un_s, .compare fun a b => a.ule b),
    (.bgt, .bgt_s, .compare fun a b => b.slt a),
    (.bgt_un, .bgt_un_s, .compare fun a b => b.ult a),
    (.bge, .bge_s, .compare fun a b => b.sle a),
    (.bge_un, .bge_un_s, .compare fun a b => b.ule a)]

def test? (op : Opcode) : Option Test :=
  (tests.find? fun (long, short, _) => op = long || op = short).map (·.2.2)

def execute (beyond : Shift.Beyond) (op : Opcode) (operand : Bytes) (stack : List Value)
    (slots : Slots) :
    Option (List Value × Slots) := do
  (← (effects beyond).lookup op).apply operand stack slots

def choose (op : Opcode) (stack : List Value) : Option (Bool × List Value) := do
  (← test? op).apply stack

def perform (beyond : Shift.Beyond) (next : Nat) (stack : List Value) (slots : Slots) :
    Reading → Option State
  | .plain op operand => do
    let (stack, slots) ← execute beyond op operand stack slots
    return ⟨next, stack, slots⟩
  | .branch op distance => do
    let (taken, stack) ← choose op stack
    return ⟨if taken then Reading.reach next distance else next, stack, slots⟩
  | .switch _ => none

/-- Runs the instruction at the offset, if it is one of the machine's and finds its operands. -/
def step? (beyond : Shift.Beyond) (code : Bytes) (x : State) : Option State := do
  let (reading, rest) ← Reading.read (code.drop x.offset)
  perform beyond (code.length - rest.length) x.stack x.slots reading

/-- The machine comes from one state to another. -/
def Reaches (beyond : Shift.Beyond) (code : Bytes) : State → State → Prop :=
  Relation.ReflTransGen fun x y => step? beyond code x = some y

end Machine
end Cil
