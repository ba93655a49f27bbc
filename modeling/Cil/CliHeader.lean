import Cil.Encoding

/-!
The header that the loader finds first: where metadata, resources and the strong-name signature are,
the flags of the image and its entry point.
-/

namespace Cil

/-- A range of the loaded image. -/
structure Directory where
  rva : UInt32 := 0
  size : UInt32 := 0
  deriving DecidableEq

structure CliHeader where
  headerSize : UInt32 := 72
  majorRuntimeVersion : UInt16 := 0
  minorRuntimeVersion : UInt16 := 0
  metadata : Directory := {}
  flags : UInt32 := 0
  entryPoint : UInt32 := 0
  resources : Directory := {}
  strongNameSignature : Directory := {}
  codeManagerTable : Directory := {}
  vtableFixups : Directory := {}
  exportAddressTableJumps : Directory := {}
  managedNativeHeader : Directory := {}

namespace CliHeader

def size : Nat := 72

/-- The image holds no native code. -/
def ilOnly : Nat := 1

/-- The image needs a 32-bit process. -/
def requires32Bit : Nat := 2

def strongNameSigned : Nat := 8

def fields (h : CliHeader) : List Field :=
  let directory (d : Directory) := [Field.word d.rva.toNat, Field.word d.size.toNat]
  [.word h.headerSize.toNat, .half h.majorRuntimeVersion.toNat,
    .half h.minorRuntimeVersion.toNat] ++
  directory h.metadata ++ [.word h.flags.toNat, .word h.entryPoint.toNat] ++
  directory h.resources ++ directory h.strongNameSignature ++ directory h.codeManagerTable ++
  directory h.vtableFixups ++ directory h.exportAddressTableJumps ++
  directory h.managedNativeHeader

end CliHeader
end Cil
