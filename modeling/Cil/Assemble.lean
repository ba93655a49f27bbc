import Cil.Assemble.Bodies
import Cil.Assemble.Populate

/-!
Assembling: a module becomes an image. Its definitions get their rows first, then the bodies are
compiled, and last the tables are filled; with debug symbols, a symbol writer is told of the result.
-/

namespace Cil

/-- The file that holds the public key of an assembly. -/
inductive KeyFile
  | missing (path : String)
  | content (bytes : Bytes)

structure Options where
  is32Bit : Bool := false
  isExecutable : Bool := false
  metadataVersion : String := "Standard CLI 2005"
  timestamp : UInt32 := 0
  keyFile : Option KeyFile := none
  debugSymbols : Bool := false

namespace Module

/-- The public key of the assembly; a key file comes before what the module says. -/
def publicKey (m : Module) : Option KeyFile → Except Error (Option Bytes)
  | some (.missing path) => .error (.keyFileNotFound path)
  | some (.content bytes) => .ok (some bytes)
  | none => .ok (m.assembly.bind (·.publicKey))

/-- Everything that fills the tables and heaps of a module. -/
def emit (src : Source) (publicKey : Option Bytes) (keepsSymbols : Bool) : Emit CodeArea := do
  Populate.moduleRow src.module
  let area ← Compile.bodies src keepsSymbols
  Populate.all src publicKey
  return area

/-- The image of a module, and what is known for debugging it. -/
def image (m : Module) (options : Options) (search : SpecSearch := .keyed .fnv) :
    Except Error (Image × List MethodSymbols) := do
  let publicKey ← m.publicKey options.keyFile
  let src : Source := ⟨m, ← Numbering.ofModule m⟩
  let (area, s) := (emit src publicKey options.debugSymbols).run (.ofModule m search)
  let area ← area
  let image : Image := {
    tables := s.tables
    strings := s.strings
    blobs := s.blobs
    guids := s.guids.bytes.toArray
    userStrings := s.userStrings
    bodies := area.bytes
    bodyRanges := area.ranges
    staticData := s.staticData
    fieldData := s.fieldData
    resources := s.resources
    entryPoint := ← Populate.entryPoint src
    metadataVersion := options.metadataVersion
    strongName := publicKey.isSome }
  return (image, area.symbols.toList)

/-- The image of a module; a symbol writer hears of it if debug symbols are asked for. -/
def assemble {σ : Type} (m : Module) (options : Options) (writer : Option (SymbolWriter σ))
    (search : SpecSearch := .keyed .fnv) : Service σ Image := do
  let (image, symbols) ← ExceptT.mk (pure (m.image options search))
  if options.debugSymbols then
    match writer with
    | some writer => MethodSymbols.replay (writer image) m symbols
    | none => throw (.symbols "debug symbols were requested without a symbol writer")
  return image

end Module
end Cil
