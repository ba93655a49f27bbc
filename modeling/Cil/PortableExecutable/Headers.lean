import Cil.PortableExecutable.Section

/-!
The headers of an executable file: those of the old format with a program that refuses to run, then
the file header and the image header with its data directories.
-/

namespace Cil
namespace PortableExecutable

def imageBase : Nat := 0x00400000

/-- The 128 bytes that older systems see. -/
def dosStub : Bytes :=
  [0x4D, 0x5A, 0x90, 0x00, 0x03, 0x00, 0x00, 0x00, 0x04, 0x00, 0x00, 0x00, 0xFF, 0xFF, 0x00, 0x00,
    0xB8, 0x00] ++ Bytes.zeros 6 ++ Bytes.le 2 0x40 ++ Bytes.zeros 34 ++ Bytes.le 4 0x80 ++
  [0x0E, 0x1F, 0xBA, 0x0E, 0x00, 0xB4, 0x09, 0xCD, 0x21, 0xB8, 0x01, 0x4C, 0xCD, 0x21] ++
    Bytes.ofText "This program cannot be run in DOS mode.\r\r\n$" ++ Bytes.zeros 7

/-- What the headers are made of. -/
structure Headers where
  is32Bit : Bool
  isExecutable : Bool
  timestamp : UInt32
  entryPoint : Nat
  /-- The data directories that are set: number, address and size. -/
  directories : List (Nat × Nat × Nat)
  sections : List PlacedSection

namespace Headers

variable (h : Headers)

def machine : Nat := if h.is32Bit then 0x014C else 0x8664

/-- An executable image; for a 32-bit machine or able to use large addresses; a library unless it is
a program. -/
def characteristics : Nat :=
  0x0002 + (if h.is32Bit then 0x0100 else 0x0020) + (if h.isExecutable then 0 else 0x2000)

def fileHeader : Bytes :=
  Bytes.ofText "PE\x00\x00" ++ Bytes.le 2 h.machine ++ Bytes.le 2 h.sections.length ++
    Bytes.le 4 h.timestamp.toNat ++ Bytes.zeros 8 ++
    Bytes.le 2 (if h.is32Bit then 0xE0 else 0xF0) ++ Bytes.le 2 h.characteristics

/-- Sizes are words in 32-bit images and double words in others. -/
def word (n : Nat) : Bytes := Bytes.le (if h.is32Bit then 4 else 8) n

def codeSections : List PlacedSection := h.sections.filter (·.isCode)

def dataSections : List PlacedSection := h.sections.filter (!·.isCode)

def totalSize (sections : List PlacedSection) : Nat := sections.foldr (·.fileSize + ·) 0

def firstRva (sections : List PlacedSection) : Nat := (sections.head?.map (·.rva)).getD 0

/-- The sizes and addresses of code and data. -/
def standardFields : Bytes :=
  Bytes.le 2 (if h.is32Bit then 0x10B else 0x20B) ++ [8, 0] ++
    Bytes.le 4 (totalSize h.codeSections) ++ Bytes.le 4 (totalSize h.dataSections) ++
    Bytes.zeros 4 ++ Bytes.le 4 h.entryPoint ++ Bytes.le 4 (firstRva h.codeSections) ++
    (if h.is32Bit then Bytes.le 4 (firstRva h.dataSections) else [])

/-- Image versions, subsystem and what the loader has to reserve. -/
def loaderFields : Bytes :=
  h.word imageBase ++ Bytes.le 4 sectionAlignment ++ Bytes.le 4 fileAlignment ++
    Bytes.le 2 4 ++ Bytes.le 2 0 ++ Bytes.le 2 0 ++ Bytes.le 2 0 ++ Bytes.le 2 4 ++ Bytes.le 2 0 ++
    Bytes.zeros 4 ++ Bytes.le 4 (PlacedSection.imageSize h.sections) ++
    Bytes.le 4 (Bytes.roundUp fileAlignment (headersSize h.is32Bit h.sections.length)) ++
    Bytes.zeros 4 ++ Bytes.le 2 3 ++ Bytes.le 2 0x0540 ++
    h.word 0x00100000 ++ h.word 0x1000 ++ h.word 0x00100000 ++ h.word 0x1000 ++
    Bytes.zeros 4

def directory (number : Nat) : Bytes :=
  match h.directories.find? (·.1 == number) with
  | some (_, rva, size) => Bytes.le 4 rva ++ Bytes.le 4 size
  | none => Bytes.zeros 8

def bytes : Bytes :=
  dosStub ++ h.fileHeader ++ h.standardFields ++ h.loaderFields ++ Bytes.le 4 dataDirectories ++
    (List.range dataDirectories).flatMap h.directory ++ h.sections.flatMap (·.header)

end Headers
end PortableExecutable
end Cil
