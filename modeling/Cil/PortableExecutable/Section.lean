import Cil.Bytes

/-!
Sections of an executable file. They follow one another in the file and in memory, each at a multiple
of the alignment there.
-/

namespace Cil
namespace PortableExecutable

def sectionAlignment : Nat := 0x2000

def fileAlignment : Nat := 0x200

def dataDirectories : Nat := 16

/-- The headers in front of the sections: those of the file, of the image and of each section. -/
def headersSize (is32Bit : Bool) (sections : Nat) : Nat :=
  0x80 + 24 + (if is32Bit then 0xE0 else 0xF0) + 40 * sections

structure Section where
  name : String
  characteristics : Nat
  size : Nat

namespace Section

def code : Nat := 0x00000020
def initializedData : Nat := 0x00000040
def discardable : Nat := 0x02000000
def execute : Nat := 0x20000000
def readable : Nat := 0x40000000
def writable : Nat := 0x80000000

def isCode (s : Section) : Bool := s.characteristics &&& code != 0

/-- The size of the section in the file. -/
def fileSize (s : Section) : Nat := Bytes.roundUp fileAlignment s.size

end Section

structure PlacedSection extends Section where
  rva : Nat
  fileOffset : Nat

namespace PlacedSection

/-- The sections one after another, from an address and an offset on. -/
def place (rva fileOffset : Nat) : List Section → List PlacedSection
  | [] => []
  | s :: rest =>
    { s with rva, fileOffset } ::
      place (Bytes.roundUp sectionAlignment (rva + s.size)) (fileOffset + s.fileSize) rest

/-- The sections behind their headers. -/
def placeAll (is32Bit : Bool) (sections : List Section) : List PlacedSection :=
  let headers := Bytes.roundUp fileAlignment (headersSize is32Bit sections.length)
  place (Bytes.roundUp sectionAlignment headers) headers sections

/-- The address behind the last section. -/
def imageSize (sections : List PlacedSection) : Nat :=
  match sections.getLast? with
  | some s => Bytes.roundUp sectionAlignment (s.rva + s.size)
  | none => 0

/-- The address of a section, or 0. -/
def rvaOf (sections : List PlacedSection) (name : String) : Nat :=
  ((sections.find? (·.name == name)).map (·.rva)).getD 0

/-- The offset of a section in the file, or 0. -/
def fileOffsetOf (sections : List PlacedSection) (name : String) : Nat :=
  ((sections.find? (·.name == name)).map (·.fileOffset)).getD 0

/-- The header of a section. Its name has eight bytes. -/
def header (s : PlacedSection) : Bytes :=
  let name := Bytes.ofText s.name
  name ++ Bytes.zeros (8 - name.length) ++ Bytes.le 4 s.size ++ Bytes.le 4 s.rva ++
    Bytes.le 4 s.fileSize ++ Bytes.le 4 s.fileOffset ++ Bytes.zeros 12 ++
    Bytes.le 4 s.characteristics

end PlacedSection
end PortableExecutable
end Cil
