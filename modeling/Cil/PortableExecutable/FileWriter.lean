import Cil.PortableExecutable.Headers

/-!
Writers of executable files. A writer is asked for sections one after another, tells where each one
goes, and writes the headers in front of them; what the sections hold is not its business.
-/

namespace Cil
namespace PortableExecutable

structure FileWriter where
  /-- Where sections go that are asked for in this order. -/
  place : (is32Bit : Bool) → List Section → List PlacedSection
  /-- The size of the section with the relocation of one address. -/
  relocationSize : Nat
  /-- That section. -/
  relocations : (address : Nat) → Bytes
  /-- The file with its headers and the contents of the sections. -/
  bytes : Headers → List (PlacedSection × Bytes) → Bytes

/-- Puts the sections behind their headers and one behind another, each at a multiple of the alignment.
Addresses to relocate are given by a block for their page, with one entry. -/
def FileWriter.standard : FileWriter where
  place := PlacedSection.placeAll
  relocationSize := 12
  relocations address :=
    Bytes.le 4 (address / 0x1000 * 0x1000) ++ Bytes.le 4 12 ++
      Bytes.le 2 (0x3000 + address % 0x1000) ++ Bytes.zeros 2
  bytes h contents :=
    Bytes.padTo fileAlignment h.bytes ++ contents.flatMap fun x => Bytes.padTo fileAlignment x.2

end PortableExecutable
end Cil
