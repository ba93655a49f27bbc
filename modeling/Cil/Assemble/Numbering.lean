import Cil.Model.Lookup

/-!
Rows of definitions. The defined types are numbered so that every type comes before the types nested
in it, which follow it at once, siblings in the order of the module; members are numbered along the
types.
-/

namespace Cil

/-- The rows of a defined type and of its members. -/
structure TypeRows where
  row : Nat
  firstField : Nat
  fieldCount : Nat
  firstMethod : Nat
  methodCount : Nat
  firstProperty : Nat
  firstEvent : Nat
  /-- The first row of the parameters of each method. -/
  firstParams : Array Nat

structure Numbering where
  order : List TypeId
  /-- The rows of each type of the module that is defined. -/
  rows : Array (Option TypeRows)
  methodCount : Nat

namespace Numbering

/-- The indices of the types that are defined directly in each type, in ascending order, and those
that are defined in none. -/
structure Nesting where
  roots : List Nat := []
  nested : Array (List Nat)

/-- Adds the type of an index in front of its siblings. -/
def Nesting.add (n : Nesting) (t : TypeInfo) (index : Nat) : Nesting :=
  if t.isDefined then
    match t.declaringType with
    | some outer => { n with nested := n.nested.modify outer.index (index :: ·) }
    | none => { n with roots := index :: n.roots }
  else n

def Nesting.ofModule (m : Module) : Nesting :=
  m.types.toList.zipIdx.foldr (fun (t, index) n => n.add t index)
    { nested := Array.replicate m.types.size [] }

/-- The types in front of the stack, each followed by all that is nested in it. -/
def preorder (nested : Nat → List Nat) : (fuel : Nat) → List Nat → List Nat
  | 0, _ => []
  | _, [] => []
  | fuel + 1, t :: stack => t :: preorder nested fuel (nested t ++ stack)

/-- Checks that the types that enclose defined types are there. -/
def checkDeclaring (m : Module) : List TypeInfo → Except Error Unit
  | [] => .ok ()
  | t :: rest => do
    if t.isDefined then
      if let some outer := t.declaringType then
        let _ ← m.typeInfo outer
    checkDeclaring m rest

/-- The order of the defined types. -/
def typeOrder (m : Module) : Except Error (List TypeId) := do
  checkDeclaring m m.types.toList
  let nesting := Nesting.ofModule m
  let order := preorder (fun t => nesting.nested.getD t []) m.types.size nesting.roots
  let defined := m.types.toList.countP (·.isDefined)
  if order.length = defined then return order.map (⟨·⟩)
  else throw (.violation (.detachedTypes (defined - order.length)))

/-- The next free row of each table of definitions. -/
structure Counters where
  type : Nat := 1
  field : Nat := 1
  method : Nat := 1
  param : Nat := 1
  property : Nat := 1
  event : Nat := 1

/-- The parameter rows of a method; the returned value has one if it is described. -/
def paramCount (m : Method) : Nat := m.returnInfo.toList.length + m.parameters.length

/-- The first row of the parameters of each method, and the first row behind them. -/
def paramRows : Array Nat → Nat → List Method → Except Error (Array Nat × Nat)
  | rows, next, [] => .ok (rows, next)
  | rows, next, m :: rest =>
    if m.signature.parameters.length < m.parameters.length then
      .error (.violation
        (.parameterCount m.name m.parameters.length m.signature.parameters.length))
    else paramRows (rows.push next) (next + paramCount m) rest

def typeRows (c : Counters) (t : TypeInfo) : Except Error (TypeRows × Counters) := do
  let (firstParams, nextParam) ← paramRows #[] c.param t.methods.toList
  let rows : TypeRows := {
    row := c.type
    firstField := c.field
    fieldCount := t.fields.size
    firstMethod := c.method
    methodCount := t.methods.size
    firstProperty := c.property
    firstEvent := c.event
    firstParams }
  return (rows, {
    type := c.type + 1
    field := c.field + t.fields.size
    method := c.method + t.methods.size
    param := nextParam
    property := c.property + t.properties.size
    event := c.event + t.events.size })

def number (m : Module) : Array (Option TypeRows) → Counters → List TypeId →
    Except Error (Array (Option TypeRows) × Counters)
  | rows, c, [] => .ok (rows, c)
  | rows, c, id :: rest => do
    let (r, c) ← typeRows c (← m.typeInfo id)
    number m (rows.setIfInBounds id.index (some r)) c rest

def ofOrder (m : Module) (order : List TypeId) : Except Error Numbering := do
  let (rows, c) ← number m (Array.replicate m.types.size none) {} order
  return { order, rows, methodCount := c.method - 1 }

/-- The first type has to hold the global members. -/
def checkGlobals (m : Module) : Except Error Unit :=
  match m.types[0]? with
  | some t =>
    if t.isDefined && t.declaringType.isNone then .ok () else .error (.violation .globalsFirst)
  | none => .error (.violation .globalsFirst)

def ofModule (m : Module) : Except Error Numbering := do
  checkGlobals m
  ofOrder m (← typeOrder m)

variable (n : Numbering)

def rows? (id : TypeId) : Option TypeRows := (n.rows[id.index]?).join

def typeRow (id : TypeId) : Except Error Nat :=
  match n.rows? id with
  | some r => .ok r.row
  | none => .error (.violation (.unlistedType id))

def fieldRow? (id : FieldId) : Option Nat :=
  (n.rows? id.parent).bind fun r =>
    if id.index < r.fieldCount then some (r.firstField + id.index) else none

def fieldRow (id : FieldId) : Except Error Nat :=
  match n.fieldRow? id with
  | some row => .ok row
  | none => .error (.violation (.unlistedField id))

def methodRow? (id : MethodId) : Option Nat :=
  (n.rows? id.parent).bind fun r =>
    if id.index < r.methodCount then some (r.firstMethod + id.index) else none

def methodRow (id : MethodId) : Except Error Nat :=
  match n.methodRow? id with
  | some row => .ok row
  | none => .error (.violation (.unlistedMethod id))

end Numbering
end Cil
