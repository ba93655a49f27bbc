import Cil.Assemble.Expression

/-!
Code of statements. A block starts with its label; a protected block, its handlers and its cleanup
block follow one another, and each ends with an instruction that leaves it.
-/

namespace Cil

/-- What surrounds a statement. -/
structure Frame where
  region : Region := .outermost
  /-- Whether an exception is being handled here, so that it can be thrown again. -/
  handling : Bool := false

namespace Compile

variable (ctx : BodyContext)

def sequencePoint (span : SourceSpan) : Compile Unit :=
  if ctx.keepsSymbols then modify (·.addPoint span) else return ()

def scopeEvent (event : ScopeEvent) : Compile Unit :=
  modify fun d => { d with scopes := d.scopes.push event }

/-- Names a local of a scope; locals without a name are left out. -/
def scopeLocal (index : Nat) : Compile Unit := do
  let slot ← localSlot ctx index
  if let some v := ctx.locals[slot]? then
    if let some name := v.name then
      let signature ← emit (typeBlob ctx.source v.variableType)
      scopeEvent (.named name slot signature)

/-- Opens a scope for the locals of a block, if it has any. -/
def openScope (locals : List Nat) : Compile Unit := do
  if ctx.keepsSymbols && !locals.isEmpty then
    scopeEvent (.opened (← stop))
    locals.forM (scopeLocal ctx)

def closeScope (locals : List Nat) : Compile Unit := do
  if ctx.keepsSymbols && !locals.isEmpty then scopeEvent (.closed (← stop))

/-- What is on the stack at the end of a block is left behind. -/
def leaveBehind : Compile Unit :=
  modify fun d => { d with leftBehind := d.leftBehind + d.height, height := 0 }

/-- Checks that a branch stays in its region, and that leaving goes to the same region or one around
it. A target that stands nowhere is reported when the body is complete. -/
def checkTarget (frame : Frame) (target : BlockId) (leaving : Bool) : Compile Unit :=
  match ctx.regions.region? target with
  | none => return ()
  | some region =>
    if leaving then
      if frame.region.within region then return () else fault ctx (.entersRegion target)
    else if region = frame.region then return ()
    else fault ctx (.crossesRegion target)

def checkTargets (frame : Frame) (targets : List BlockId) : Compile Unit :=
  targets.forM (checkTarget ctx frame · false)

def popValues : Nat → Compile Unit
  | 0 => return ()
  | count + 1 => do
    op .pop
    lower 1
    popValues count

/-- A handler starts with the exception on the stack, and puts it in a local or drops it. -/
def enterHandler (into : Option Nat) : Compile Unit := do
  setHeight 0
  raise 1
  match into with
  | some index => storeLocal ctx index
  | none => popValues 1

/-- Leaves a region at its end, if that can be reached. -/
def leaveAtEnd (target : Label) : Compile Unit := do
  if ← fallsThrough then leave target .auto

def addClause (guard : Guard) (tryStart tryStop handlerStart : Nat) : Compile Unit := do
  let handlerStop ← stop
  modify fun d =>
    { d with clauses := d.clauses.push { guard, tryStart, tryStop, handlerStart, handlerStop } }

def returnValue (frame : Frame) (value : Option Expression) : Compile Unit := do
  if frame.region ≠ .outermost then fault ctx .returnInRegion
  match value, ctx.method.signature.returnsVoid with
  | some e, false =>
    expression ctx e
    lower 1
  | none, true => pure ()
  | some _, true => fault ctx .returnsValue
  | none, false => fault ctx .returnsNothing
  op .ret

def throwValue (frame : Frame) (value : Option Expression) : Compile Unit :=
  match value with
  | some e => do
    expression ctx e
    op .throw
    lower 1
  | none => if frame.handling then op .rethrow else fault ctx .rethrow

def Cleanup.isNothing : Cleanup → Bool
  | .nothing => true
  | .finallyBlock _ | .faultBlock _ => false

mutual

def block (frame : Frame) : Block → Compile Unit
  | .mk id body locals source => do
    placeBlock ctx id
    source.forM (sequencePoint ctx)
    openScope ctx locals
    statements { frame with region := (ctx.regions.region? id).getD frame.region } body
    leaveBehind
    closeScope ctx locals

def statements (frame : Frame) : List Statement → Compile Unit
  | [] => return ()
  | s :: rest => do
    statement frame s
    statements frame rest

def statement (frame : Frame) : Statement → Compile Unit
  | .block b => block frame b
  | .expression e => do
    let before ← height
    expression ctx e
    popValues ((← height) - before)
  | .assign target value => store ctx target value
  | .branch none target form => do
    checkTarget ctx frame target false
    branch .always (.block target) form
  | .branch (some test) target form => do
    checkTarget ctx frame target false
    condition ctx (.block target) form true test
  | .leave target form => do
    checkTarget ctx frame target true
    leave (.block target) form
  | .switch value targets => do
    checkTargets ctx frame targets
    expression ctx value
    instruction (.switch (targets.map .block))
    lower 1
  | .exit value => returnValue ctx frame value
  | .throwing value => throwValue ctx frame value
  | .guarded body hs clean => do
    if hs.isEmpty && Cleanup.isNothing clean then fault ctx .noHandlers
    let behind ← newLabel
    let tryStart ← stop
    block frame body
    leaveAtEnd behind
    let tryStop ← stop
    handlers frame behind tryStart tryStop hs
    cleanup frame tryStart clean
    place behind
  | .initObject address valueType => do
    expression ctx address
    opType ctx .initobj valueType
    lower 1
  | .sequencePoint span => sequencePoint ctx span
  | .breakpoint => op .breakpoint
  | .nop => op .nop

def handlers (frame : Frame) (behind : Label) (tryStart tryStop : Nat) :
    List Handler → Compile Unit
  | [] => return ()
  | h :: rest => do
    handler frame behind tryStart tryStop h
    handlers frame behind tryStart tryStop rest

def handler (frame : Frame) (behind : Label) (tryStart tryStop : Nat) : Handler → Compile Unit
  | .catching exceptionType into body => do
    let token ← encodeToken (← emit (typeToken ctx.source exceptionType)).token
    let start ← stop
    enterHandler ctx into
    block { frame with handling := true } body
    leaveAtEnd behind
    addClause (.exceptionType token) tryStart tryStop start
  | .filtering into filter test body => do
    let filterStart ← stop
    enterHandler ctx into
    block { frame with handling := false } filter
    expression ctx test
    op .endfilter
    lower 1
    let start ← stop
    enterHandler ctx into
    block { frame with handling := true } body
    leaveAtEnd behind
    addClause (.filter filterStart) tryStart tryStop start

def cleanup (frame : Frame) (tryStart : Nat) : Cleanup → Compile Unit
  | .nothing => return ()
  | .finallyBlock body => do
    let start ← stop
    setHeight 0
    block { frame with handling := false } body
    op .endfinally
    addClause .anyExit tryStart start start
  | .faultBlock body => do
    let start ← stop
    setHeight 0
    block { frame with handling := false } body
    op .endfinally
    addClause .anyException tryStart start start

end

/-- The whole body, with a return at an end that can be reached. -/
def body (b : Body) : Compile Unit := do
  block ctx {} b.root
  if ← fallsThrough then
    unless ctx.method.signature.returnsVoid do fault ctx .endReached
    op .ret

end Compile
end Cil
