import Cil.Assemble.Reference
import Cil.Assemble.Region
import Cil.Code.Layout
import Cil.MethodBody
import Cil.Symbols
import Std.Data.TreeSet

/-!
Drafts: the code of a body while it is compiled, with the height of the stack, the exception clauses
and the symbols so far. Every place in a draft is a number of instructions.
-/

namespace Cil

/-- What makes a handler run. -/
inductive Guard
  | exceptionType (token : Nat)
  /-- A filter, which ends where its handler starts. -/
  | filter (start : Nat)
  | anyExit
  | anyException

/-- A clause by the places in the code. -/
structure DraftClause where
  guard : Guard
  tryStart : Nat
  tryStop : Nat
  handlerStart : Nat
  handlerStop : Nat

def DraftClause.clause (c : DraftClause) (l : Code.Layout) : Clause :=
  let (flags, classOrFilter) := match c.guard with
    | .exceptionType token => (Clause.typedFlag, token)
    | .filter start => (Clause.filterFlag, l.offset start)
    | .anyExit => (Clause.finallyFlag, 0)
    | .anyException => (Clause.faultFlag, 0)
  { flags
    tryOffset := l.offset c.tryStart
    tryLength := l.offset c.tryStop - l.offset c.tryStart
    handlerOffset := l.offset c.handlerStart
    handlerLength := l.offset c.handlerStop - l.offset c.handlerStart
    classOrFilter := .ofNat classOrFilter }

structure Draft where
  code : Code := {}
  /-- The labels that some instruction goes to. -/
  targets : Std.TreeSet Label := {}
  /-- Whether an instruction goes to the end of the code. -/
  joined : Bool := false
  internalLabels : Nat := 0
  height : Nat := 0
  maxHeight : Nat := 0
  /-- The values that were left on the stack at the ends of blocks. -/
  leftBehind : Nat := 0
  clauses : Array DraftClause := #[]
  /-- Scopes, with places for offsets. -/
  scopes : Array ScopeEvent := #[]
  points : Array (Nat × SourceSpan) := #[]

/-- The event with offsets for places. -/
def ScopeEvent.laidOut (l : Code.Layout) : ScopeEvent → ScopeEvent
  | .opened place => .opened (l.offset place)
  | .named name slot signature => .named name slot signature
  | .closed place => .closed (l.offset place)

namespace Draft

/-- Whether control can reach the end of the code. -/
def fallsThrough (d : Draft) : Bool :=
  d.joined || !d.code.instructions.back?.any Instruction.transfers

def maxStack (d : Draft) : UInt16 := .ofNat (min (d.leftBehind + d.maxHeight) 0xFFFF)

def push (d : Draft) (i : Instruction) : Draft :=
  { d with
    code := d.code.push i
    targets := d.targets.insertMany i.targets
    joined := false }

def place (d : Draft) (l : Label) : Draft :=
  { d with code := d.code.place l, joined := d.joined || d.targets.contains l }

/-- Values are put on the stack. -/
def raise (d : Draft) (count : Nat) : Draft :=
  { d with
    height := d.height + count
    maxHeight := max d.maxHeight (d.height + count) }

/-- Values are taken from the stack. -/
def lower (d : Draft) (count : Nat) : Draft := { d with height := d.height - count }

/-- A point takes the place of one that no instruction lies behind. -/
def addPoint (d : Draft) (span : SourceSpan) : Draft :=
  let stop := d.code.stop
  { d with
    points := (if d.points.back?.any (·.1 == stop) then d.points.pop else d.points).push
      (stop, span) }

def pointAt (l : Code.Layout) (place : Nat) (span : SourceSpan) : DocumentId × SequencePoint :=
  (span.document, {
    offset := l.offset place
    startLine := span.startLine
    startColumn := span.startColumn
    endLine := span.endLine
    endColumn := span.endColumn })

/-- The symbols of the method of a token, if there are any. -/
def symbols? (d : Draft) (token : Nat) (l : Code.Layout) : Option MethodSymbols :=
  if d.scopes.isEmpty && d.points.isEmpty then none
  else some {
    token
    codeSize := l.size
    scopes := d.scopes.toList.map (ScopeEvent.laidOut l)
    points := d.points.toList.map fun (place, span) => pointAt l place span }

end Draft

/-- What a body is compiled against. -/
structure BodyContext where
  source : Source
  method : Method
  locals : Array LocalVariable
  regions : Regions
  /-- Whether scopes and sequence points are kept. -/
  keepsSymbols : Bool

/-- Compilation grows a draft, which is kept when it fails. -/
abbrev Compile := ExceptT Error (StateT Draft (StateM Session))

namespace Compile

def emit {α : Type} (action : Emit α) : Compile α :=
  ExceptT.mk fun draft session =>
    let (result, session) := action.run session
    ((result, draft), session)

def fault {α : Type} (ctx : BodyContext) (cause : BodyFault) : Compile α :=
  throw (.invalidBody ctx.method.name cause)

def stop : Compile Nat := return (← get).code.stop

def height : Compile Nat := return (← get).height

def setHeight (height : Nat) : Compile Unit := modify ({ · with height })

/-- Values are put on the stack. -/
def raise (count : Nat) : Compile Unit := modify (·.raise count)

/-- Values are taken from the stack. -/
def lower (count : Nat) : Compile Unit := modify (·.lower count)

def instruction (i : Instruction) : Compile Unit := modify (·.push i)

def opWith (op : Opcode) (operand : Bytes) : Compile Unit := instruction (.simple op operand)

def op (op : Opcode) : Compile Unit := opWith op []

def encodeToken (token : Token) : Compile Nat := emit (Emit.ofEncoding token.encode)

def opToken (op : Opcode) (token : Token) : Compile Unit := do
  opWith op (.le 4 (← encodeToken token))

/-- An instruction with the token of a type. -/
def opType (ctx : BodyContext) (op : Opcode) (t : TypeSig) : Compile Unit := do
  opToken op (← emit (typeToken ctx.source t)).token

def branch (b : Branch) (target : Label) (form : BranchForm) : Compile Unit :=
  instruction (.branch b target form)

/-- Leaving a region empties the stack. -/
def leave (target : Label) (form : BranchForm) : Compile Unit := do
  branch .leave target form
  setHeight 0

def newLabel : Compile Label :=
  modifyGet fun d =>
    (.internal d.internalLabels, { d with internalLabels := d.internalLabels + 1 })

def place (l : Label) : Compile Unit := modify (·.place l)

def placeBlock (ctx : BodyContext) (id : BlockId) : Compile Unit := do
  if (← get).code.isPlaced (.block id) then fault ctx (.placedTwice id)
  place (.block id)

def fallsThrough : Compile Bool := return (← get).fallsThrough

end Compile
end Cil
