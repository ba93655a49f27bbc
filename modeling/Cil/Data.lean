import Cil.Bytes

/-!
Data that goes into the image as it is: initial values of static fields, one buffer for each section
that can hold them, and embedded resources.
-/

namespace Cil

/-- The bytes with zeros behind them up to the next multiple of eight. -/
def alignEight (bytes : Array UInt8) : Array UInt8 :=
  bytes ++ Bytes.zeros (Bytes.padding 8 bytes.size)

inductive DataSection | sdata | tls | text
  deriving DecidableEq

structure StaticData where
  sdata : Array UInt8 := #[]
  tls : Array UInt8 := #[]
  text : Array UInt8 := #[]

namespace StaticData

def buffer (d : StaticData) : DataSection → Array UInt8
  | .sdata => d.sdata
  | .tls => d.tls
  | .text => d.text

/-- Appends data at the next multiple of eight of a section, and gives that offset. -/
def append (d : StaticData) (data : Bytes) : DataSection → Nat × StaticData
  | .sdata => let start := alignEight d.sdata; (start.size, { d with sdata := start ++ data })
  | .tls => let start := alignEight d.tls; (start.size, { d with tls := start ++ data })
  | .text => let start := alignEight d.text; (start.size, { d with text := start ++ data })

end StaticData

/-- Embedded resources: each stands at a multiple of eight behind its length. -/
structure Resources where
  bytes : Array UInt8 := #[]

def Resources.append (r : Resources) (data : Bytes) : Nat × Resources :=
  let start := alignEight r.bytes
  (start.size, ⟨start ++ Bytes.le 4 data.length ++ data⟩)

end Cil
