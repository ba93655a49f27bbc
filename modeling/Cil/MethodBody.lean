import Cil.Encoding

/-!
Encoded methods: a header, the code, and the exception clauses in a section at the next multiple of
four bytes. A small method without locals and clauses has a header of one byte; the section is small
if all clauses and their number allow it.
-/

namespace Cil

inductive MethodHeader
  | tiny (size : Nat)
  | fat (flags : UInt16) (maxStack : UInt16) (size : Nat) (localSignature : UInt32)
  deriving DecidableEq

namespace MethodHeader

/-- The low bits of every header that is not tiny. -/
def fatFormat : Nat := 0x3

/-- A section with exception clauses follows the code. -/
def moreSections : Nat := 0x8

def initLocals : Nat := 0x10

def length : MethodHeader → Nat
  | tiny _ => 1
  | fat .. => 12

/-- The top four bits of a fat header count its own words. -/
def fields : MethodHeader → List Field
  | tiny size => [.byte (.ofNat (size * 4 + 2))]
  | fat flags maxStack size localSignature =>
    if 0x100000000 ≤ size then [.error (.bodySize size)]
    else [.half (flags.toNat ||| 0x3000), .half maxStack.toNat, .word size,
      .word localSignature.toNat]

/-- The header at the front of the input, and the rest. -/
def read : Bytes → Except EncodingError (MethodHeader × Bytes)
  | [] => .error .noRoom
  | b1 :: rest =>
    if b1.toNat % 4 = 2 then .ok (tiny (b1.toNat / 4), rest)
    else
      match rest with
      | b2 :: m0 :: m1 :: s0 :: s1 :: s2 :: s3 :: t0 :: t1 :: t2 :: t3 :: rest =>
        .ok (fat (.ofNat (b2.toNat % 16 * 256 + b1.toNat)) (.ofNat (Bytes.ofLe [m0, m1]))
          (Bytes.ofLe [s0, s1, s2, s3]) (.ofNat (Bytes.ofLe [t0, t1, t2, t3])), rest)
      | _ => .error .noRoom

end MethodHeader

/-- One exception clause. The last field is the token of the exception type, or where the filter
starts. -/
structure Clause where
  flags : UInt32
  tryOffset : Nat
  tryLength : Nat
  handlerOffset : Nat
  handlerLength : Nat
  classOrFilter : UInt32
  deriving DecidableEq

namespace Clause

def typedFlag : UInt32 := 0
def filterFlag : UInt32 := 1
def finallyFlag : UInt32 := 2
def faultFlag : UInt32 := 4

def fitsSmall (c : Clause) : Bool :=
  c.tryOffset ≤ 0xFFFF && c.handlerOffset ≤ 0xFFFF && c.tryLength ≤ 0xFF && c.handlerLength ≤ 0xFF

def smallFields (c : Clause) : List Field :=
  [.half c.flags.toNat, .half c.tryOffset, .ok (.le 1 c.tryLength), .half c.handlerOffset,
    .ok (.le 1 c.handlerLength), .word c.classOrFilter.toNat]

def fatFields (c : Clause) : List Field :=
  [.word c.flags.toNat, .word c.tryOffset, .word c.tryLength, .word c.handlerOffset,
    .word c.handlerLength, .word c.classOrFilter.toNat]

/-- Whether the clauses fit in a section of the small format. -/
def allSmall (cs : List Clause) : Bool := 4 + cs.length * 12 ≤ 0xFF && cs.all fitsSmall

/-- The section that holds the clauses. -/
def sectionFields (cs : List Clause) : List Field :=
  if allSmall cs then
    .ok [0x01, .ofNat (4 + cs.length * 12), 0, 0] :: cs.flatMap smallFields
  else if 4 + cs.length * 24 ≤ 0xFFFFFF then
    .ok (0x41 :: Bytes.le 3 (4 + cs.length * 24)) :: cs.flatMap fatFields
  else [.error (.clauseCount cs.length)]

end Clause

structure MethodBody where
  code : Bytes
  maxStack : UInt16
  localSignature : UInt32 := 0
  initLocals : Bool := false
  clauses : List Clause := []
  deriving DecidableEq

namespace MethodBody

/-- The tiny header wherever the method allows it. -/
def header (m : MethodBody) : MethodHeader :=
  if m.code.length < 64 && m.maxStack.toNat ≤ 8 && m.localSignature == 0 && !m.initLocals &&
      m.clauses.isEmpty then
    .tiny m.code.length
  else
    let locals := if m.initLocals then MethodHeader.initLocals else 0
    let sections := if m.clauses.isEmpty then 0 else MethodHeader.moreSections
    .fat (.ofNat (MethodHeader.fatFormat + locals + sections)) m.maxStack m.code.length
      m.localSignature

def fields (m : MethodBody) : List Field :=
  let front := m.header.fields ++ [.ok m.code]
  if m.clauses.isEmpty then front
  else
    front ++ [.ok (Bytes.zeros (Bytes.padding 4 (m.header.length + m.code.length)))] ++
      Clause.sectionFields m.clauses

def encode (m : MethodBody) : Except EncodingError Bytes := Field.join m.fields

end MethodBody
end Cil
