import Cil.Assemble.Statement
import Cil.Code.Patching

/-!
Encoded bodies of all methods. A body is compiled once; its layout is then found and its code written,
and only after that does the signature of its locals get a row.
-/

namespace Cil

/-- The encoded methods so far, each at a multiple of four bytes. -/
structure CodeArea where
  bytes : Array UInt8 := #[]
  /-- The start and the end of each method that has a body, by its row. -/
  ranges : Array (Option (Nat × Nat))
  symbols : Array MethodSymbols := #[]

namespace CodeArea

def ofSize (methods : Nat) : CodeArea where
  ranges := Array.replicate methods none

/-- Appends the encoding of the method of a row. -/
def append (area : CodeArea) (row : Nat) (encoding : Bytes) (symbols : Option MethodSymbols) :
    CodeArea :=
  let bytes := area.bytes ++ Bytes.zeros (Bytes.padding 4 area.bytes.size)
  let start := bytes.size
  let bytes := bytes ++ encoding
  { bytes
    ranges := area.ranges.setIfInBounds (row - 1) (some (start, bytes.size))
    symbols := area.symbols ++ symbols.toArray }

end CodeArea

namespace Compile

/-- A draft whose compilation may have failed. A branch that has to be short and does not reach is
found while the code is compiled, and so comes before an error behind it. -/
def checkDraft (result : Except Error Unit) (d : Draft) : Except Error Unit :=
  match d.code.layout.outOfRange? with
  | some distance => .error (.branchOutOfRange distance)
  | none => do
    result
    match d.code.unplaced? with
    | some id => .error (.unplacedTarget id)
    | none => .ok ()

/-- The code of a body and its layout. -/
def layOut (ctx : BodyContext) (b : Body) : Emit (Draft × Code.Layout) := do
  let (result, draft) ← ExceptT.lift ((body ctx b).run {})
  Emit.ofExcept (checkDraft result draft)
  let layout ← Emit.ofExcept (draft.code.relax.mapError .branchOutOfRange)
  return (draft, layout)

/-- The token of the signature of the locals, or 0. -/
def localSignature (src : Source) (locals : Array LocalVariable) : Emit Nat := do
  if locals.isEmpty then return 0
  let token ← standAloneSig (← localsBlob src locals)
  Emit.ofEncoding token.encode

/-- The encoded method of a row, with its symbols. -/
def encodeBody (src : Source) (keepsSymbols : Bool) (row : Nat) (m : Method) (b : Body) :
    Emit (MethodBody × Option MethodSymbols) := do
  let token ← Emit.ofEncoding (Token.row .methodDef row).encode
  let ctx : BodyContext :=
    { source := src, method := m, locals := b.locals, regions := .ofBody b, keepsSymbols }
  let (draft, layout) ← layOut ctx b
  let written ← Emit.ofExcept (layout.code.write.mapError .branchOutOfRange)
  let localSignature ← localSignature src b.locals
  let encoded : MethodBody := {
    code := written.bytes.toList
    maxStack := draft.maxStack
    localSignature := .ofNat localSignature
    initLocals := b.initLocals
    clauses := draft.clauses.toList.map (·.clause layout) }
  return (encoded, draft.symbols? token layout)

/-- Methods whose code is elsewhere, or nowhere. -/
def hasNoCode (m : Method) : Bool :=
  m.isAbstract || m.platformInvoke.isSome || m.implFlags.internalCall ||
    m.implFlags.format == .runtime

def method (src : Source) (keepsSymbols : Bool) (area : CodeArea) (id : MethodId) (m : Method) :
    Emit CodeArea := do
  match m.body with
  | none => return area
  | some b =>
    if hasNoCode m then throw (.invalidBody m.name .noCode)
    let row ← Emit.ofExcept (src.numbering.methodRow id)
    let (encoded, symbols) ← encodeBody src keepsSymbols row m b
    let encoding ← Emit.ofEncoding encoded.encode
    return area.append row encoding symbols

/-- The methods of one type from an index on. -/
def methods (src : Source) (keepsSymbols : Bool) (parent : TypeId) :
    (index : Nat) → CodeArea → List Method → Emit CodeArea
  | _, area, [] => return area
  | index, area, m :: rest => do
    let area ← method src keepsSymbols area ⟨parent, index⟩ m
    methods src keepsSymbols parent (index + 1) area rest

/-- The methods of types, in the order of their rows. -/
def typesMethods (src : Source) (keepsSymbols : Bool) : CodeArea → List TypeId → Emit CodeArea
  | area, [] => return area
  | area, id :: rest => do
    let t ← Emit.ofExcept (src.module.typeInfo id)
    let area ← methods src keepsSymbols id 0 area t.methods.toList
    typesMethods src keepsSymbols area rest

def bodies (src : Source) (keepsSymbols : Bool) : Emit CodeArea :=
  typesMethods src keepsSymbols (.ofSize src.numbering.methodCount) src.numbering.order

end Compile
end Cil
