import Cil.CliHeader
import Cil.Image

/-!
The section that holds the image: a jump to the runtime in programs, the method bodies, data,
metadata, resources, room for the signature, and the header that leads to all of them.
-/

namespace Cil
namespace PortableExecutable

/-- The parts of the section that do not depend on where it is loaded. -/
structure TextSection where
  isExecutable : Bool
  is32Bit : Bool
  image : Image
  metadataSize : Nat
  /-- The room for a signature, if the image has a strong name. -/
  signatureSize : Option Nat
  /-- Whether the room will hold a signature. -/
  isSigned : Bool

namespace TextSection

variable (t : TextSection)

/-- A program starts with a jump of six bytes. -/
def jumpSize : Nat := if t.isExecutable then 6 else 0

def bodies : Nat := Bytes.roundUp 4 t.jumpSize

def data : Nat := Bytes.roundUp 8 (t.bodies + t.image.bodies.size)

def metadata : Nat := Bytes.roundUp 4 (t.data + t.image.staticData.text.size)

def resources : Nat := t.metadata + t.metadataSize

def signature : Nat := Bytes.roundUp 4 (t.resources + t.image.resources.bytes.size)

def header : Nat := Bytes.roundUp 4 (t.signature + t.signatureSize.getD 0)

def size : Nat := t.header + CliHeader.size

/-- A directory of a part of the section, which is loaded at an address. -/
def directory (rva offset size : Nat) : Directory := ⟨.ofNat (rva + offset), .ofNat size⟩

def flags : Nat :=
  CliHeader.ilOnly + (if t.is32Bit then CliHeader.requires32Bit else 0) +
    (if t.signatureSize.isSome && t.isSigned then CliHeader.strongNameSigned else 0)

def cliHeader (rva : Nat) : CliHeader where
  headerSize := .ofNat CliHeader.size
  majorRuntimeVersion := 2
  minorRuntimeVersion := 5
  metadata := directory rva t.metadata t.metadataSize
  flags := .ofNat t.flags
  entryPoint := .ofNat t.image.entryPoint
  resources :=
    if t.image.resources.bytes.isEmpty then {}
    else directory rva t.resources t.image.resources.bytes.size
  strongNameSignature :=
    match t.signatureSize with
    | some size => directory rva t.signature size
    | none => {}

/-- The jump through the address that the loader fills in. -/
def jump (addressTable : Nat) : Bytes :=
  if t.isExecutable then [0xFF, 0x25] ++ Bytes.le 4 addressTable else []

/-- The parts of the section with their offsets, for an address of its own, the address to jump
through, and the metadata. -/
def parts (rva addressTable : Nat) (metadata : Bytes) : List (Nat × Bytes) :=
  [(0, t.jump addressTable),
    (t.bodies, t.image.bodies.toList),
    (t.data, t.image.staticData.text.toList),
    (t.metadata, metadata),
    (t.resources, t.image.resources.bytes.toList),
    (t.signature, Bytes.zeros (t.signatureSize.getD 0)),
    (t.header, Field.written (t.cliHeader rva).fields)]

def bytes (rva addressTable : Nat) (metadata : Bytes) : Bytes :=
  Bytes.spread 0 (t.parts rva addressTable metadata)

end TextSection
end PortableExecutable
end Cil
