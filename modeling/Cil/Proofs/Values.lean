import Cil.Assemble.Statement
import Cil.Proofs.Operands

/-!
Bodies in which every operand has a value. Only as a statement of its own may an expression call a method
that returns nothing.
-/

namespace Cil

def Expression.values (m : Module) : Expression → Nat
  | .call method .. => (((Named.method method).callee? m).map (·.results)).getD 1
  | .callIndirect s .. => (Callee.ofSignature s 0).results
  | _ => 1

/-- Whether there is something to load. In an array of several dimensions a method returns it. -/
def Target.hasValue : Target → Bool
  | .element _ arrayType _ =>
    match arrayType.unmodified with
    | .array held _ => !({ returnType := held } : MethodSignature).returnsVoid
    | _ => true
  | _ => true

mutual

/-- All operands within the expression have values, and its indirect calls and constructors are given
what they take. -/
def Expression.Sound (m : Module) : Expression → Prop
  | .literal _ | .variable _ | .parameter _ | .this | .sizeOf _ | .token _ => True
  | .load target => target.Sound m ∧ target.hasValue = true
  | .addressOf target => target.Sound m
  | .call _ receiver arguments _ _ _ => ReceiverSound m receiver ∧ OperandsSound m arguments
  | .callIndirect s function arguments =>
    OperandsSound m arguments ∧ (function.Sound m ∧ function.values m = 1) ∧
      arguments.length = s.parameters.length + s.isInstance.toNat
  | .construct constructor arguments => OperandsSound m arguments ∧ constructor.varArgTypes = []
  | .newArray _ sizes => OperandsSound m sizes
  | .arrayLength e | .unary _ e | .convert _ e _ _ | .box _ e | .unbox _ e _ | .castClass _ e
  | .isInstance _ e | .stackAlloc e => e.Sound m ∧ e.values m = 1
  | .binary _ left right _ _ | .compare _ left right _ =>
    (left.Sound m ∧ left.values m = 1) ∧ (right.Sound m ∧ right.values m = 1)
  | .conditional test ifTrue ifFalse =>
    test.Sound m ∧ (ifTrue.Sound m ∧ ifTrue.values m = 1) ∧
      (ifFalse.Sound m ∧ ifFalse.values m = 1)
  | .functionPointer _ receiver => ReceiverSound m receiver

def OperandsSound (m : Module) : List Expression → Prop
  | [] => True
  | e :: es => (e.Sound m ∧ e.values m = 1) ∧ OperandsSound m es

def ReceiverSound (m : Module) : Option Expression → Prop
  | none => True
  | some e => e.Sound m ∧ e.values m = 1

def Target.Sound (m : Module) : Target → Prop
  | .variable _ | .parameter _ => True
  | .field receiver _ => ReceiverSound m receiver
  | .element array _ indices =>
    (array.Sound m ∧ array.values m = 1) ∧ OperandsSound m indices
  | .indirect address _ => address.Sound m ∧ address.values m = 1

def Condition.Sound (m : Module) : Condition → Prop
  | .isTrue e | .isFalse e => e.Sound m ∧ e.values m = 1
  | .compare _ left right _ =>
    (left.Sound m ∧ left.values m = 1) ∧ (right.Sound m ∧ right.values m = 1)

end

/-- The expression is sound and has a value. -/
def Expression.IsOperand (m : Module) (e : Expression) : Prop := e.Sound m ∧ e.values m = 1

mutual

def Block.Sound (m : Module) : Block → Prop
  | .mk _ statements _ _ => StatementsSound m statements

def StatementsSound (m : Module) : List Statement → Prop
  | [] => True
  | s :: ss => s.Sound m ∧ StatementsSound m ss

def Statement.Sound (m : Module) : Statement → Prop
  | .block b => b.Sound m
  | .expression e => e.Sound m
  | .assign target value => target.Sound m ∧ value.IsOperand m
  | .branch test _ _ => ∀ c ∈ test, c.Sound m
  | .switch value _ => value.IsOperand m
  | .exit value | .throwing value => ∀ e ∈ value, e.IsOperand m
  | .guarded body handlers cleanup =>
    body.Sound m ∧ HandlersSound m handlers ∧ cleanup.Sound m
  | .initObject address _ => address.IsOperand m
  | .leave .. | .sequencePoint _ | .breakpoint | .nop => True

def HandlersSound (m : Module) : List Handler → Prop
  | [] => True
  | h :: hs => h.Sound m ∧ HandlersSound m hs

def Handler.Sound (m : Module) : Handler → Prop
  | .catching _ _ block => block.Sound m
  | .filtering _ filter test block => filter.Sound m ∧ test.IsOperand m ∧ block.Sound m

def Cleanup.Sound (m : Module) : Cleanup → Prop
  | .nothing => True
  | .finallyBlock block | .faultBlock block => block.Sound m

end

/-- Every operand of the body has a value. -/
def Body.Sound (m : Module) (b : Body) : Prop := b.root.Sound m

end Cil
