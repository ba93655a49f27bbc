import Cil.Encoding

/-!
The metadata root: a signature, the version text and one header for each stream. Texts end with a
zero byte and fill up to a multiple of four bytes.
-/

namespace Cil
namespace Metadata

/-- The bytes that a text takes with its zero byte and padding. -/
def textSize (text : String) : Nat := Bytes.roundUp 4 (text.utf8ByteSize + 1)

def textField (text : String) : Field :=
  let bytes := Bytes.ofText text
  .ok (bytes ++ Bytes.zeros (textSize text - bytes.length))

structure StreamHeader where
  offset : UInt32
  size : UInt32
  name : String

namespace StreamHeader

def encodedSize (name : String) : Nat := 8 + textSize name

def fields (h : StreamHeader) : List Field :=
  [.word h.offset.toNat, .word h.size.toNat, textField h.name]

end StreamHeader

structure Root where
  signature : UInt32 := 0x424A5342
  majorVersion : UInt16 := 1
  minorVersion : UInt16 := 1
  reserved : UInt32 := 0
  version : String
  flags : UInt16 := 0
  streams : List StreamHeader

namespace Root

def encodedSize (version : String) (streams : List String) : Nat :=
  20 + textSize version + streams.foldr (fun name size => StreamHeader.encodedSize name + size) 0

def fields (r : Root) : List Field :=
  [.word r.signature.toNat, .half r.majorVersion.toNat, .half r.minorVersion.toNat,
    .word r.reserved.toNat, .word (textSize r.version), textField r.version,
    .half r.flags.toNat, .half r.streams.length] ++ r.streams.flatMap (·.fields)

end Root
end Metadata
end Cil
