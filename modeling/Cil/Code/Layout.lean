import Cil.Code

/-!
Layouts: the offset of every place of a code. A short branch has an operand of one byte. Backward
branches take the short form where it reaches; forward branches take it at first, and those that do
not reach are made long until all do.
-/

namespace Cil
namespace Code

structure Layout where
  code : Code
  /-- The offset of each place, the one behind the last instruction included. -/
  offsets : Array Nat

/-- Whether a branch is short, by the offset at which it stands and that of its target if the target
stands before it. -/
def isShort (form : BranchForm) (here : Nat) (earlier : Option Nat) : Bool :=
  match form, earlier with
  | .long, _ => false
  | .short, _ => true
  | .auto, none => true
  | .auto, some target => here + 2 ≤ target + 128

/-- The size of an instruction, by the offsets of the places up to its own. -/
def sizeAt (code : Code) (here : Nat) (offsets : Array Nat) : Instruction → Nat
  | .simple op operand => op.bytes.length + operand.length
  | .branch _ target form =>
    if isShort form here ((code.position? target).bind (offsets[·]?)) then 2 else 5
  | .switch targets => 5 + 4 * targets.length

def offsetsFrom (code : Code) (here : Nat) (offsets : Array Nat) : List Instruction → Array Nat
  | [] => offsets.push here
  | i :: rest =>
    let offsets := offsets.push here
    offsetsFrom code (here + sizeAt code here offsets i) offsets rest

def layout (code : Code) : Layout :=
  ⟨code, offsetsFrom code 0 #[] code.instructions.toList⟩

namespace Layout

variable (l : Layout)

def offset (position : Nat) : Nat := l.offsets.getD position 0

/-- The offset behind the last instruction. -/
def size : Nat := l.offset l.code.stop

/-- How far the target of an instruction is from the place behind the instruction. -/
def distance? (position : Nat) (target : Label) : Option Int :=
  (l.code.position? target).map fun p => (l.offset p : Int) - l.offset (position + 1)

/-- Whether the branch at a position has an operand of one byte. -/
def hasShortBranch (position : Nat) : Bool := l.offset (position + 1) == l.offset position + 2

def fitsShort (distance : Int) : Bool := -128 ≤ distance && distance ≤ 127

/-- The distance of the target of a short branch, if that does not reach it. -/
def miss? (position : Nat) (target : Label) : Option Int :=
  if l.hasShortBranch position then (l.distance? position target).filter (!fitsShort ·) else none

/-- The order in which branches are found not to reach: a backward branch where it stands, the
forward branches to a label where that stands, the last of them first. -/
def missOrder (position : Nat) (target : Code.Place) : List Nat :=
  if target.position ≤ position then [position, 1]
  else [target.position, 0, target.rank, l.code.stop - position]

/-- The branches that have to be short and do not reach, with their order and distance. -/
def forcedMisses : List (List Nat × Int) :=
  l.code.instructions.toList.zipIdx.filterMap fun
    | (.branch _ target .short, position) => do
      let place ← l.code.labels[target]?
      let distance ← l.miss? position target
      return (l.missOrder position place, distance)
    | _ => none

def firstMiss (a b : List Nat × Int) : List Nat × Int := if b.1 < a.1 then b else a

/-- The distance of the first branch that has to be short and does not reach. -/
def outOfRange? : Option Int :=
  match l.forcedMisses with
  | [] => none
  | miss :: rest => some (rest.foldl firstMiss miss).2

/-- The code with those branches made long that are free to be so and do not reach. -/
def widened : Code :=
  { l.code with
    instructions := l.code.instructions.mapIdx fun position i =>
      match i with
      | .branch b target .auto =>
        .branch b target (if (l.miss? position target).isSome then .long else .auto)
      | i => i }

/-- A signed number in little-endian order. -/
def signed (width : Nat) (n : Int) : Bytes := .le width (n % Nat.pow 256 width).toNat

def distance (position : Nat) (target : Label) : Int := (l.distance? position target).getD 0

def instructionBytes (position : Nat) : Instruction → Bytes
  | .simple op operand => op.bytes ++ operand
  | .branch b target _ =>
    if l.hasShortBranch position then b.short.bytes ++ signed 1 (l.distance position target)
    else b.long.bytes ++ signed 4 (l.distance position target)
  | .switch targets =>
    Opcode.switch.bytes ++ Bytes.le 4 targets.length ++
      targets.flatMap fun target => signed 4 (l.distance position target)

def bytes : Bytes :=
  l.code.instructions.toList.zipIdx.flatMap fun (i, position) => l.instructionBytes position i

end Layout

/-- The branches whose form is still open. -/
def autoBranches (code : Code) : Nat := code.instructions.countP Instruction.isAuto

/-- The layout in which every short branch reaches; or the distance of one that cannot. -/
def relax (code : Code) : Except Int Layout :=
  let layout := code.layout
  match layout.outOfRange? with
  | some distance => .error distance
  | none =>
    let wider := layout.widened
    if wider.autoBranches < code.autoBranches then relax wider else .ok layout
termination_by code.autoBranches

end Code
end Cil
