import Cil.Model.Body
import Cil.Opcode
import Std.Data.TreeMap

/-!
Code before it has offsets. Branches name labels, and a place in the code is the number of
instructions before it, so that nothing here depends on the size of an instruction.
-/

namespace Cil

inductive Label
  | block (id : BlockId)
  /-- A place that no block names, such as the end of a conditional expression. -/
  | internal (number : Nat)
  deriving DecidableEq

namespace Label

/-- Labels are ordered by numbers of their own. -/
def key : Label → Nat
  | block id => 2 * id.index
  | internal number => 2 * number + 1

theorem key_inj {a b : Label} (h : a.key = b.key) : a = b := by
  rcases a with ⟨⟨i⟩⟩ | i <;> rcases b with ⟨⟨j⟩⟩ | j <;> simp only [key] at h <;> grind

instance : Ord Label := ⟨compareOn key⟩

instance : Std.TransOrd Label := inferInstanceAs (Std.TransCmp (compareOn key))

instance : Std.LawfulEqOrd Label where
  eq_of_compare h := key_inj (Std.LawfulEqOrd.eq_of_compare h)

end Label

/-- The instructions that go to one label. -/
inductive Branch
  | always
  | leave
  | ifTrue
  | ifFalse
  | compare (op : Comparison) (unsigned : Bool)
  deriving DecidableEq

namespace Branch

/-- The opcode with an operand of four bytes. -/
def long : Branch → Opcode
  | always => .br
  | leave => .leave
  | ifTrue => .brtrue
  | ifFalse => .brfalse
  | compare .equal _ => .beq
  | compare .notEqual _ => .bne_un
  | compare .less false => .blt
  | compare .less true => .blt_un
  | compare .lessOrEqual false => .ble
  | compare .lessOrEqual true => .ble_un
  | compare .greater false => .bgt
  | compare .greater true => .bgt_un
  | compare .greaterOrEqual false => .bge
  | compare .greaterOrEqual true => .bge_un

/-- The opcode with an operand of one byte. -/
def short : Branch → Opcode
  | always => .br_s
  | leave => .leave_s
  | ifTrue => .brtrue_s
  | ifFalse => .brfalse_s
  | compare .equal _ => .beq_s
  | compare .notEqual _ => .bne_un_s
  | compare .less false => .blt_s
  | compare .less true => .blt_un_s
  | compare .lessOrEqual false => .ble_s
  | compare .lessOrEqual true => .ble_un_s
  | compare .greater false => .bgt_s
  | compare .greater true => .bgt_un_s
  | compare .greaterOrEqual false => .bge_s
  | compare .greaterOrEqual true => .bge_un_s

theorem short?_long (b : Branch) : b.long.short? = some b.short := by
  cases b with
  | compare op unsigned => cases op <;> cases unsigned <;> rfl
  | always | leave | ifTrue | ifFalse => rfl

end Branch

inductive Instruction
  | simple (op : Opcode) (operand : Bytes)
  | branch (b : Branch) (target : Label) (form : BranchForm)
  | switch (targets : List Label)

namespace Instruction

/-- Whether control never goes on to the next instruction. -/
def transfers : Instruction → Bool
  | simple op _ => op.transfers
  | branch b .. => b.long.transfers
  | switch _ => false

def targets : Instruction → List Label
  | simple .. => []
  | branch _ target _ => [target]
  | switch targets => targets

def isAuto : Instruction → Bool
  | branch _ _ .auto => true
  | _ => false

end Instruction

/-- Where a label stands: the number of instructions and of labels before it. -/
structure Code.Place where
  position : Nat
  rank : Nat
  deriving DecidableEq

structure Code where
  instructions : Array Instruction := #[]
  labels : Std.TreeMap Label Code.Place := {}

namespace Code

/-- The place behind the last instruction. -/
def stop (code : Code) : Nat := code.instructions.size

def push (code : Code) (i : Instruction) : Code :=
  { code with instructions := code.instructions.push i }

def isPlaced (code : Code) (l : Label) : Bool := code.labels.contains l

/-- Places a label behind the last instruction. -/
def place (code : Code) (l : Label) : Code :=
  { code with labels := code.labels.insert l ⟨code.instructions.size, code.labels.size⟩ }

def position? (code : Code) (l : Label) : Option Nat := code.labels[l]?.map (·.position)

/-- The blocks that are branched to and stand nowhere. -/
def unplaced (code : Code) : List BlockId :=
  code.instructions.toList.flatMap fun i => i.targets.filterMap fun
    | .block id => if code.isPlaced (.block id) then none else some id
    | .internal _ => none

/-- The block with the smallest number that is branched to and stands nowhere. -/
def unplaced? (code : Code) : Option BlockId :=
  (code.unplaced.map (·.index)).min?.map (⟨·⟩)

end Code
end Cil
