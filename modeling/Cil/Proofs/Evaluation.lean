import Cil.Model.Body

/-!
What expressions mean, as far as they are about 32-bit integers. Arithmetic wraps around, a comparison
gives one or zero, and of a conditional value only the chosen part counts. `HasKind` tells which
expressions these are, and of what kind their values are.
-/

namespace Cil

/-- A value on the stack or in a slot. -/
inductive Value
  | int32 (n : BitVec 32)
  /-- A reference to an object, or to none. -/
  | object (id : Option Nat)
  deriving DecidableEq

namespace Value

inductive Kind | int32 | object
  deriving DecidableEq

def kind : Value → Kind
  | int32 _ => .int32
  | object _ => .object

def int32? : Value → Option (BitVec 32)
  | int32 n => some n
  | object _ => none

def isTrue : Value → Bool
  | int32 n => n ≠ 0
  | object id => id.isSome

def ofBool (b : Bool) : Value := .int32 (if b then 1 else 0)

theorem eq_int32_of_kind {v : Value} (h : v.kind = .int32) : ∃ n, v = .int32 n := by
  cases v with
  | int32 n => exact ⟨n, rfl⟩
  | object id => cases h

end Value

/-- What a method reads from: its locals, its parameters by their declared positions, and `this`. -/
structure Environment (α : Type) where
  locals : Nat → α
  parameters : Nat → α
  this : α

def Environment.map {α β : Type} (f : α → β) (x : Environment α) : Environment β :=
  ⟨f ∘ x.locals, f ∘ x.parameters, f x.this⟩

inductive Shift | left | right | rightUnsigned
  deriving DecidableEq

namespace Shift

/-- What a shift by the width or more gives, which the instruction set leaves open. -/
abbrev Beyond := Shift → BitVec 32 → BitVec 32 → BitVec 32

def apply (beyond : Beyond) (s : Shift) (a count : BitVec 32) : BitVec 32 :=
  if count.toNat < 32 then
    match s with
    | left => a <<< count.toNat
    | right => a.sshiftRight count.toNat
    | rightUnsigned => a >>> count.toNat
  else beyond s a count

end Shift

namespace BinaryOp

def isTotal : BinaryOp → Bool
  | divide | remainder => false
  | _ => true

def result? (beyond : Shift.Beyond) (unsigned : Bool) (a b : BitVec 32) : BinaryOp → Option (BitVec 32)
  | add => some (a + b)
  | subtract => some (a - b)
  | multiply => some (a * b)
  | and => some (a &&& b)
  | or => some (a ||| b)
  | xor => some (a ^^^ b)
  | shiftLeft => some (Shift.left.apply beyond a b)
  | shiftRight => some ((if unsigned then Shift.rightUnsigned else .right).apply beyond a b)
  | divide | remainder => none

end BinaryOp

def UnaryOp.apply (a : BitVec 32) : UnaryOp → BitVec 32
  | negate => -a
  | not => ~~~a

namespace Comparison

def decides (x y : Int) : Comparison → Bool
  | equal => x = y
  | notEqual => x ≠ y
  | less => x < y
  | lessOrEqual => x ≤ y
  | greater => x > y
  | greaterOrEqual => x ≥ y

def holds (op : Comparison) (unsigned : Bool) (a b : BitVec 32) : Bool :=
  if unsigned then op.decides a.toNat b.toNat else op.decides a.toInt b.toInt

end Comparison

section

variable (beyond : Shift.Beyond) (x : Environment Value)

mutual

def Expression.value? : Expression → Option Value
  | .literal (.int32 v) => some (.int32 v.toBitVec)
  | .literal (.boolean v) => some (.ofBool v)
  | .literal (.char v) => some (.int32 (v.toBitVec.setWidth 32))
  | .variable index => some (x.locals index)
  | .parameter index => some (x.parameters index)
  | .this => some x.this
  | .binary op left right unsigned false => do
    let a ← (← left.value?).int32?
    let b ← (← right.value?).int32?
    return .int32 (← op.result? beyond unsigned a b)
  | .unary op operand => do
    let a ← (← operand.value?).int32?
    return .int32 (op.apply a)
  | .compare op left right unsigned => do
    let a ← (← left.value?).int32?
    let b ← (← right.value?).int32?
    return .ofBool (op.holds unsigned a b)
  | .conditional test ifTrue ifFalse => do
    if ← test.holds? then ifTrue.value? else ifFalse.value?
  | _ => none

def Condition.holds? : Condition → Option Bool
  | .isTrue e => do return (← e.value?).isTrue
  | .isFalse e => do return !(← e.value?).isTrue
  | .compare op left right unsigned => do
    let a ← (← left.value?).int32?
    let b ← (← right.value?).int32?
    return op.holds unsigned a b

end

end

def Condition.operands : Condition → List Expression
  | isTrue e | isFalse e => [e]
  | compare _ left right _ => [left, right]

/-- The expressions about 32-bit integers, with the kinds of their values. -/
inductive Expression.HasKind (kinds : Environment Value.Kind) : Expression → Value.Kind → Prop
  | int32 (v : Int32) : HasKind kinds (.literal (.int32 v)) .int32
  | boolean (v : Bool) : HasKind kinds (.literal (.boolean v)) .int32
  | char (v : UInt16) : HasKind kinds (.literal (.char v)) .int32
  | ofLocal (index : Nat) : HasKind kinds (.variable index) (kinds.locals index)
  | parameter (index : Nat) : HasKind kinds (.parameter index) (kinds.parameters index)
  | this : HasKind kinds .this kinds.this
  | binary {op : BinaryOp} (total : op.isTotal = true) {left right : Expression} (unsigned : Bool)
      (hl : HasKind kinds left .int32) (hr : HasKind kinds right .int32) :
      HasKind kinds (.binary op left right unsigned false) .int32
  | unary (op : UnaryOp) {operand : Expression} (h : HasKind kinds operand .int32) :
      HasKind kinds (.unary op operand) .int32
  | compare (op : Comparison) {left right : Expression} (unsigned : Bool)
      (hl : HasKind kinds left .int32) (hr : HasKind kinds right .int32) :
      HasKind kinds (.compare op left right unsigned) .int32
  | conditional {test : Condition} {ifTrue ifFalse : Expression} {k : Value.Kind}
      (operands : ∀ e ∈ test.operands, HasKind kinds e .int32)
      (ht : HasKind kinds ifTrue k) (hf : HasKind kinds ifFalse k) :
      HasKind kinds (.conditional test ifTrue ifFalse) k

end Cil
