import Cil.Assemble
import Cil.PortableExecutable.FileWriter
import Cil.PortableExecutable.Imports
import Cil.PortableExecutable.TextSection

/-!
Executable files. A file is laid out with an empty signature and then signed as a whole, so that a
signature changes nothing but its own room.
-/

namespace Cil

/-- Signs files. Every signature has the size that is promised. -/
structure Signer (σ : Type) where
  signatureSize : Nat
  sign : Bytes → Service σ Bytes

namespace PortableExecutable

/-- The room for a signature that nobody writes yet. -/
def defaultSignatureSize : Nat := 128

/-- A file, and the offset and the size of its signature. -/
structure File where
  bytes : Bytes
  signature : Option (Nat × Nat)

variable (w : FileWriter)

/-- The sections of a file with their sizes. -/
def sections (t : TextSection) : List Section :=
  let importSize := (Imports.bytes ⟨t.is32Bit, 0⟩).length
  let data : Nat := Section.initializedData + Section.readable
  let onlyIf (condition : Bool) (s : Section) : List Section := if condition then [s] else []
  onlyIf t.isExecutable ⟨".idata", data, importSize⟩ ++
    [⟨".text", Section.code + Section.execute + Section.readable, t.size⟩] ++
    onlyIf (!t.image.staticData.sdata.isEmpty)
      ⟨".sdata", data + Section.writable, t.image.staticData.sdata.size⟩ ++
    onlyIf (!t.image.staticData.tls.isEmpty)
      ⟨".tls", data + Section.writable, t.image.staticData.tls.size⟩ ++
    onlyIf t.isExecutable ⟨".reloc", data + Section.discardable, w.relocationSize⟩

def placed (t : TextSection) : List PlacedSection := w.place t.is32Bit (sections w t)

/-- Where the image is loaded. -/
def textRva (t : TextSection) : Nat := PlacedSection.rvaOf (placed w t) ".text"

def imports (t : TextSection) : Imports := ⟨t.is32Bit, PlacedSection.rvaOf (placed w t) ".idata"⟩

/-- The content of a section by its name. -/
def content (t : TextSection) (metadata : Bytes) : (name : String) → Bytes
  | ".idata" => (imports w t).bytes
  | ".text" => t.bytes (textRva w t) (imageBase + (imports w t).addressTable) metadata
  | ".sdata" => t.image.staticData.sdata.toList
  | ".tls" => t.image.staticData.tls.toList
  | _ => w.relocations (textRva w t + 2)

/-- The data directories: relocations, imports, the header of the image and the address table. -/
def directories (t : TextSection) : List (Nat × Nat × Nat) :=
  let cli := (14, textRva w t + t.header, CliHeader.size)
  if t.isExecutable then
    [(1, (imports w t).directory, Imports.directorySize),
      (5, PlacedSection.rvaOf (placed w t) ".reloc", w.relocationSize),
      (12, (imports w t).addressTable, Imports.addressTableSize), cli]
  else [cli]

def headers (t : TextSection) (timestamp : UInt32) : Headers where
  is32Bit := t.is32Bit
  isExecutable := t.isExecutable
  timestamp
  entryPoint := if t.isExecutable then textRva w t else 0
  directories := directories w t
  sections := placed w t

/-- Where the buffers of the image are loaded. -/
def placement (t : TextSection) : Placement where
  bodies := .ofNat (textRva w t + t.bodies)
  text := .ofNat (textRva w t + t.data)
  sdata := .ofNat (PlacedSection.rvaOf (placed w t) ".sdata")
  tls := .ofNat (PlacedSection.rvaOf (placed w t) ".tls")

/-- The section of an image; its metadata has the same size wherever it is loaded. -/
def textSection (image : Image) (options : Options) (signerSize : Option Nat) :
    Except Error TextSection := do
  let metadata ← image.metadata.mapError .encoding
  return {
    isExecutable := options.isExecutable
    is32Bit := options.is32Bit
    image
    metadataSize := metadata.length
    signatureSize := if image.strongName then signerSize.getD defaultSignatureSize else none
    isSigned := signerSize.isSome }

/-- The file of an image with an empty signature. -/
def file (image : Image) (options : Options) (signerSize : Option Nat) : Except Error File := do
  let t ← textSection image options signerSize
  let metadata ← (image.metadataAt (placement w t)).mapError .encoding
  return {
    bytes := w.bytes (headers w t options.timestamp)
      ((placed w t).map fun s => (s, content w t metadata s.name))
    signature := t.signatureSize.map fun size =>
      (PlacedSection.fileOffsetOf (placed w t) ".text" + t.signature, size) }

/-- Puts a signature in its room. -/
def File.sign {σ : Type} (f : File) (signer : Signer σ) : Service σ Bytes := do
  match f.signature with
  | none => return f.bytes
  | some (offset, size) =>
    let signature ← signer.sign f.bytes
    if signature.length ≠ size then
      throw (.signing
        s!"expected a {size} byte signature, the signer produced {signature.length}")
    return f.bytes.take offset ++ signature ++ f.bytes.drop (offset + size)

/-- The file of an image, signed if it has a strong name and there is a signer. -/
def write {σ : Type} (image : Image) (options : Options) (signer : Option (Signer σ)) :
    Service σ Bytes := do
  let f ← ExceptT.mk (pure (file w image options (signer.map (·.signatureSize))))
  match signer with
  | some signer => f.sign signer
  | none => return f.bytes

end PortableExecutable

/-- Writes a module as a file, with the help of a symbol writer and a signer if there are any. -/
def Module.write {σ : Type} (m : Module) (options : Options) (writer : Option (SymbolWriter σ))
    (signer : Option (Signer σ)) : Service σ Bytes := do
  PortableExecutable.write .standard (← m.assemble options writer) options signer

end Cil
