import Cil.Bytes

/-!
The one import of a program: the function of the runtime that runs it. The names come first, then the
lookup table, the address table with the same entries, and the import directory.
-/

namespace Cil
namespace PortableExecutable

structure Imports where
  is32Bit : Bool
  /-- The address of the section. -/
  rva : Nat

namespace Imports

def libraryName : Bytes := Bytes.ofText "mscoree.dll\x00"

/-- The name of the function behind its hint. -/
def hintName : Bytes := Bytes.ofText "\x00\x00_CorExeMain\x00"

def names : Bytes := Bytes.padTo 8 (libraryName ++ hintName)

variable (i : Imports)

/-- One entry and the end mark. -/
def table : Bytes :=
  let width := if i.is32Bit then 4 else 8
  Bytes.le width (i.rva + libraryName.length) ++ Bytes.zeros width

def lookupTable : Nat := i.rva + names.length

def addressTable : Nat := i.lookupTable + i.table.length

def directory : Nat := i.addressTable + i.table.length

/-- The directory has one entry and an empty one. -/
def directorySize : Nat := 40

def addressTableSize : Nat := 8

def bytes : Bytes :=
  names ++ i.table ++ i.table ++ Bytes.le 4 i.lookupTable ++ Bytes.zeros 8 ++ Bytes.le 4 i.rva ++
    Bytes.le 4 i.addressTable ++ Bytes.zeros 20

end Imports
end PortableExecutable
end Cil
