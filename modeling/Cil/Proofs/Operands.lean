import Cil.Assemble.Reference
import Cil.Proofs.Reading

/-!
What instructions take: the operand behind the opcode and the values on the stack. Most opcodes move the
same number of values wherever they stand; a call moves what the method that it names takes and returns.
-/

namespace Cil

/-- What a token is asked for. -/
inductive Named
  | type (t : TypeSig)
  | field (r : FieldRef)
  | method (r : MethodRef)
  | arrayMethod (array : TypeSig) (name : String) (s : MethodSignature)
  | signature (s : MethodSignature)
  | text (v : String)

namespace Named

def token (src : Source) : Named → Emit Token
  | type t => return (← typeToken src t).token
  | field r => fieldToken src r
  | method r => methodToken src r
  | arrayMethod array name s => Cil.arrayMethod src array name s
  | signature s => do standAloneSig (← methodBlob src s 0 [])
  | text v => return .userString (← Emit.userString v)

def kind : Named → TokenKind
  | type _ => .type
  | field _ => .field
  | method _ | arrayMethod .. => .method
  | signature _ => .signature
  | text _ => .string

end Named

def TokenKind.accepts : TokenKind → TokenKind → Bool
  | any, given => given = type || given = field || given = method
  | wanted, given => wanted = given

/-- The operand is one that the opcode takes; a token in it is one of those given out. -/
def Opcode.Takes (op : Opcode) (known : List (Named × Token)) (operand : Bytes) : Prop :=
  match op.operand? with
  | some .nothing => operand = []
  | some (.number width) => operand.length = width
  | some (.token kind) => ∃ named token value, (named, token) ∈ known ∧ kind.accepts named.kind ∧
      token.encode = .ok value ∧ operand = .le 4 value
  | some (.target _) | some .switch | none => False

/-- How many values an instruction takes from the stack, and how many it puts on it. -/
structure StackEffect where
  pops : Nat
  pushes : Nat
  deriving DecidableEq

namespace Opcode

/-- The effects of the opcodes that have the same one everywhere, by ranges of opcodes. -/
def effectRanges : List (Nat × Nat × StackEffect) :=
  [(0x00, 0x01, ⟨0, 0⟩), (0x02, 0x09, ⟨0, 1⟩), (0x0A, 0x0D, ⟨1, 0⟩), (0x0E, 0x0F, ⟨0, 1⟩),
    (0x10, 0x10, ⟨1, 0⟩), (0x11, 0x12, ⟨0, 1⟩), (0x13, 0x13, ⟨1, 0⟩), (0x14, 0x23, ⟨0, 1⟩),
    (0x25, 0x25, ⟨1, 2⟩), (0x26, 0x26, ⟨1, 0⟩), (0x27, 0x27, ⟨0, 0⟩), (0x2B, 0x2B, ⟨0, 0⟩),
    (0x2C, 0x2D, ⟨1, 0⟩), (0x2E, 0x37, ⟨2, 0⟩), (0x38, 0x38, ⟨0, 0⟩), (0x39, 0x3A, ⟨1, 0⟩),
    (0x3B, 0x44, ⟨2, 0⟩), (0x45, 0x45, ⟨1, 0⟩), (0x46, 0x50, ⟨1, 1⟩), (0x51, 0x57, ⟨2, 0⟩),
    (0x58, 0x64, ⟨2, 1⟩), (0x65, 0x6E, ⟨1, 1⟩), (0x70, 0x70, ⟨2, 0⟩), (0x71, 0x71, ⟨1, 1⟩),
    (0x72, 0x72, ⟨0, 1⟩), (0x74, 0x79, ⟨1, 1⟩), (0x7A, 0x7A, ⟨1, 0⟩), (0x7B, 0x7C, ⟨1, 1⟩),
    (0x7D, 0x7D, ⟨2, 0⟩), (0x7E, 0x7F, ⟨0, 1⟩), (0x80, 0x80, ⟨1, 0⟩), (0x81, 0x81, ⟨2, 0⟩),
    (0x82, 0x8E, ⟨1, 1⟩), (0x8F, 0x9A, ⟨2, 1⟩), (0x9B, 0xA2, ⟨3, 0⟩), (0xA3, 0xA3, ⟨2, 1⟩),
    (0xA4, 0xA4, ⟨3, 0⟩), (0xA5, 0xC6, ⟨1, 1⟩), (0xD0, 0xD0, ⟨0, 1⟩), (0xD1, 0xD5, ⟨1, 1⟩),
    (0xD6, 0xDB, ⟨2, 1⟩), (0xDC, 0xDE, ⟨0, 0⟩), (0xDF, 0xDF, ⟨2, 0⟩), (0xE0, 0xE0, ⟨1, 1⟩),
    (0xFE00, 0xFE00, ⟨0, 1⟩), (0xFE01, 0xFE05, ⟨2, 1⟩), (0xFE06, 0xFE06, ⟨0, 1⟩),
    (0xFE07, 0xFE07, ⟨1, 1⟩), (0xFE09, 0xFE0A, ⟨0, 1⟩), (0xFE0B, 0xFE0B, ⟨1, 0⟩),
    (0xFE0C, 0xFE0D, ⟨0, 1⟩), (0xFE0E, 0xFE0E, ⟨1, 0⟩), (0xFE0F, 0xFE0F, ⟨1, 1⟩),
    (0xFE11, 0xFE11, ⟨1, 0⟩), (0xFE12, 0xFE14, ⟨0, 0⟩), (0xFE15, 0xFE15, ⟨1, 0⟩),
    (0xFE16, 0xFE16, ⟨0, 0⟩), (0xFE17, 0xFE18, ⟨3, 0⟩), (0xFE19, 0xFE1A, ⟨0, 0⟩),
    (0xFE1C, 0xFE1C, ⟨0, 1⟩), (0xFE1D, 0xFE1D, ⟨1, 1⟩), (0xFE1E, 0xFE1E, ⟨0, 0⟩)]

def effect? (op : Opcode) : Option StackEffect :=
  (effectRanges.find? fun (first, last, _) =>
    first ≤ op.value.toNat && op.value.toNat ≤ last).map (·.2.2)

end Opcode

/-- What a method takes and whether it returns something. -/
structure Callee where
  parameters : Nat
  isInstance : Bool
  returnsVoid : Bool

namespace Callee

def ofSignature (s : MethodSignature) (varArgs : Nat) : Callee where
  parameters := s.parameters.length + varArgs
  isInstance := s.isInstance
  returnsVoid := s.returnsVoid

def operands (c : Callee) : Nat := c.parameters + c.isInstance.toNat

def results (c : Callee) : Nat := (!c.returnsVoid).toNat

end Callee

def Named.callee? (m : Module) : Named → Option Callee
  | method r => (m.methodDef r.method).toOption.map fun d =>
    .ofSignature d.signature r.varArgTypes.length
  | arrayMethod _ _ s | signature s => some (.ofSignature s 0)
  | type _ | field _ | text _ => none

theorem Named.callee?_method {m : Module} {r : MethodRef} {d : Method}
    (found : m.methodDef r.method = .ok d) :
    (method r).callee? m = some (.ofSignature d.signature r.varArgTypes.length) := by
  rw [callee?, found]
  rfl

def Opcode.callEffect? (op : Opcode) (c : Callee) : Option StackEffect :=
  if op = call ∨ op = callvirt then some ⟨c.operands, c.results⟩
  else if op = calli then some ⟨c.operands + 1, c.results⟩
  else if op = newobj then some ⟨c.parameters, 1⟩
  else none

@[simp] theorem Opcode.callEffect?_newobj (c : Callee) :
    newobj.callEffect? c = some ⟨c.parameters, 1⟩ := rfl

/-- What an instruction does to the stack in a method of some signature, where some tokens are known. -/
inductive Opcode.Moves (m : Module) (s : MethodSignature) (known : List (Named × Token)) :
    Opcode → Bytes → StackEffect → Prop
  | fixed {op operand e} (h : op.effect? = some e) : Moves m s known op operand e
  | returning : Moves m s known ret [] ⟨(!s.returnsVoid).toNat, 0⟩
  | calling {op n token value c e} (given : (n, token) ∈ known) (encoded : token.encode = .ok value)
      (callee : n.callee? m = some c) (h : op.callEffect? c = some e) :
      Moves m s known op (.le 4 value) e

theorem Opcode.Moves.mono {m : Module} {s : MethodSignature} {known known' : List (Named × Token)}
    {op : Opcode} {operand : Bytes} {e : StackEffect} (h : Moves m s known op operand e)
    (sub : known ⊆ known') : Moves m s known' op operand e := by
  cases h with
  | fixed h => exact .fixed h
  | returning => exact .returning
  | calling given encoded callee h => exact .calling (sub given) encoded callee h

def Branch.pops : Branch → Nat
  | always | leave => 0
  | ifTrue | ifFalse => 1
  | compare .. => 2

theorem Branch.effect?_long (b : Branch) : b.long.effect? = some ⟨b.pops, 0⟩ := by
  cases b with
  | compare op unsigned => cases op <;> cases unsigned <;> rfl
  | always | leave | ifTrue | ifFalse => rfl

theorem Branch.effect?_short (b : Branch) : b.short.effect? = some ⟨b.pops, 0⟩ := by
  cases b with
  | compare op unsigned => cases op <;> cases unsigned <;> rfl
  | always | leave | ifTrue | ifFalse => rfl

end Cil
