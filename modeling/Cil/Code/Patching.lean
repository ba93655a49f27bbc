import Cil.Code.Layout

/-!
Code as it is written, from its start to its end. The operand of a branch to a label that stands further
on is left zero and noted; when the label is marked, the operands that wait for it are put in.
-/

namespace Cil
namespace Code

/-- An operand that waits for its label. -/
structure Fixup where
  position : Nat
  /-- The offset behind the instruction, from which distances are counted. -/
  base : Nat
  /-- The number and the form of a branch whose operand has one byte. -/
  short : Option (Nat × BranchForm)

def operandWidth (short : Option (Nat × BranchForm)) : Nat := if short.isSome then 1 else 4

structure Writer where
  bytes : Array UInt8 := #[]
  /-- The offsets of the labels so far. -/
  labels : Std.TreeMap Label Nat := {}
  /-- The operands that wait for a label, the last one first. -/
  pending : Std.TreeMap Label (List Fixup) := {}
  /-- The branches that do not reach but may be made long. -/
  overflow : Array Nat := #[]

namespace Writer

def append (w : Writer) (bytes : Bytes) : Writer := { w with bytes := w.bytes ++ bytes.toArray }

/-- Puts bytes in the place of others. -/
def overwrite (bytes : Array UInt8) : (position : Nat) → Bytes → Array UInt8
  | _, [] => bytes
  | position, b :: rest => overwrite (bytes.setIfInBounds position b) (position + 1) rest

/-- Puts an operand in, now that its label has an offset. -/
def patch (label : Nat) (w : Writer) (f : Fixup) : Except Int Writer :=
  let distance : Int := label - f.base
  let patched := { w with
    bytes := overwrite w.bytes f.position (Layout.signed (operandWidth f.short) distance) }
  match f.short with
  | some (number, form) =>
    if distance ≤ 127 then .ok patched
    else if form = .short then .error distance
    else .ok { w with overflow := w.overflow.push number }
  | none => .ok patched

def mark (w : Writer) (l : Label) : Except Int Writer :=
  let label := w.bytes.size
  (w.pending.getD l []).foldlM (patch label)
    { w with labels := w.labels.insert l label, pending := w.pending.erase l }

/-- Writes the operand for a target, or zeros as long as the target has no offset. -/
def operand (base : Nat) (short : Option (Nat × BranchForm)) (w : Writer) (target : Label) : Writer :=
  match w.labels[target]? with
  | some label => w.append (Layout.signed (operandWidth short) (label - base))
  | none =>
    let fixup := ⟨w.bytes.size, base, short⟩
    { w.append (Bytes.zeros (operandWidth short)) with
      pending := w.pending.insert target (fixup :: w.pending.getD target []) }

def branch (w : Writer) (number : Nat) (b : Branch) (target : Label) (form : BranchForm) :
    Except Int Writer :=
  let here := w.bytes.size
  let earlier := w.labels[target]?
  if isShort form here earlier then
    match earlier.filter fun label => label + 128 < here + 2 with
    | some label => .error (label - (here + 2))
    | none => .ok ((w.append b.short.bytes).operand (here + 2) (some (number, form)) target)
  else .ok ((w.append b.long.bytes).operand (here + 5) none target)

def instruction (w : Writer) (number : Nat) : Instruction → Except Int Writer
  | .simple op operand => .ok (w.append (op.bytes ++ operand))
  | .branch b target form => w.branch number b target form
  | .switch targets =>
    let w := w.append (Opcode.switch.bytes ++ Bytes.le 4 targets.length)
    .ok (targets.foldl (operand (w.bytes.size + 4 * targets.length) none) w)

end Writer

/-- The labels at a place. All of them get the same offset, and so their order does not matter. -/
def labelsAt (code : Code) (position : Nat) : List Label :=
  (code.labels.toList.filter (·.2.position == position)).map (·.1)

/-- The instructions from a position on, each behind the labels at its place. -/
def writeFrom (code : Code) (w : Writer) (position : Nat) : List Instruction → Except Int Writer
  | [] => (code.labelsAt position).foldlM Writer.mark w
  | i :: rest => do
    let w ← (code.labelsAt position).foldlM Writer.mark w
    code.writeFrom (← w.instruction position i) (position + 1) rest

def write (code : Code) : Except Int Writer := code.writeFrom {} 0 code.instructions.toList

end Code
end Cil
