import Cil.Bytes

/-!
The instruction set. An opcode is one byte, or two of which the first is `0xFE`; a branch opcode
with a four-byte operand has a short form with a one-byte operand.
-/

namespace Cil

structure Opcode where
  value : UInt16
  deriving DecidableEq

namespace Opcode

def nop : Opcode := ⟨0x00⟩
def breakpoint : Opcode := ⟨0x01⟩
def ldarg_0 : Opcode := ⟨0x02⟩
def ldarg_1 : Opcode := ⟨0x03⟩
def ldarg_2 : Opcode := ⟨0x04⟩
def ldarg_3 : Opcode := ⟨0x05⟩
def ldloc_0 : Opcode := ⟨0x06⟩
def ldloc_1 : Opcode := ⟨0x07⟩
def ldloc_2 : Opcode := ⟨0x08⟩
def ldloc_3 : Opcode := ⟨0x09⟩
def stloc_0 : Opcode := ⟨0x0A⟩
def stloc_1 : Opcode := ⟨0x0B⟩
def stloc_2 : Opcode := ⟨0x0C⟩
def stloc_3 : Opcode := ⟨0x0D⟩
def ldarg_s : Opcode := ⟨0x0E⟩
def ldarga_s : Opcode := ⟨0x0F⟩
def starg_s : Opcode := ⟨0x10⟩
def ldloc_s : Opcode := ⟨0x11⟩
def ldloca_s : Opcode := ⟨0x12⟩
def stloc_s : Opcode := ⟨0x13⟩
def ldnull : Opcode := ⟨0x14⟩
def ldc_i4_m1 : Opcode := ⟨0x15⟩
def ldc_i4_0 : Opcode := ⟨0x16⟩
def ldc_i4_s : Opcode := ⟨0x1F⟩
def ldc_i4 : Opcode := ⟨0x20⟩
def ldc_i8 : Opcode := ⟨0x21⟩
def ldc_r4 : Opcode := ⟨0x22⟩
def ldc_r8 : Opcode := ⟨0x23⟩
def dup : Opcode := ⟨0x25⟩
def pop : Opcode := ⟨0x26⟩
def jmp : Opcode := ⟨0x27⟩
def call : Opcode := ⟨0x28⟩
def calli : Opcode := ⟨0x29⟩
def ret : Opcode := ⟨0x2A⟩
def br_s : Opcode := ⟨0x2B⟩
def brfalse_s : Opcode := ⟨0x2C⟩
def brtrue_s : Opcode := ⟨0x2D⟩
def beq_s : Opcode := ⟨0x2E⟩
def bge_s : Opcode := ⟨0x2F⟩
def bgt_s : Opcode := ⟨0x30⟩
def ble_s : Opcode := ⟨0x31⟩
def blt_s : Opcode := ⟨0x32⟩
def bne_un_s : Opcode := ⟨0x33⟩
def bge_un_s : Opcode := ⟨0x34⟩
def bgt_un_s : Opcode := ⟨0x35⟩
def ble_un_s : Opcode := ⟨0x36⟩
def blt_un_s : Opcode := ⟨0x37⟩
def br : Opcode := ⟨0x38⟩
def brfalse : Opcode := ⟨0x39⟩
def brtrue : Opcode := ⟨0x3A⟩
def beq : Opcode := ⟨0x3B⟩
def bge : Opcode := ⟨0x3C⟩
def bgt : Opcode := ⟨0x3D⟩
def ble : Opcode := ⟨0x3E⟩
def blt : Opcode := ⟨0x3F⟩
def bne_un : Opcode := ⟨0x40⟩
def bge_un : Opcode := ⟨0x41⟩
def bgt_un : Opcode := ⟨0x42⟩
def ble_un : Opcode := ⟨0x43⟩
def blt_un : Opcode := ⟨0x44⟩
def switch : Opcode := ⟨0x45⟩
def ldind_i1 : Opcode := ⟨0x46⟩
def ldind_u1 : Opcode := ⟨0x47⟩
def ldind_i2 : Opcode := ⟨0x48⟩
def ldind_u2 : Opcode := ⟨0x49⟩
def ldind_i4 : Opcode := ⟨0x4A⟩
def ldind_u4 : Opcode := ⟨0x4B⟩
def ldind_i8 : Opcode := ⟨0x4C⟩
def ldind_i : Opcode := ⟨0x4D⟩
def ldind_r4 : Opcode := ⟨0x4E⟩
def ldind_r8 : Opcode := ⟨0x4F⟩
def ldind_ref : Opcode := ⟨0x50⟩
def stind_ref : Opcode := ⟨0x51⟩
def stind_i1 : Opcode := ⟨0x52⟩
def stind_i2 : Opcode := ⟨0x53⟩
def stind_i4 : Opcode := ⟨0x54⟩
def stind_i8 : Opcode := ⟨0x55⟩
def stind_r4 : Opcode := ⟨0x56⟩
def stind_r8 : Opcode := ⟨0x57⟩
def add : Opcode := ⟨0x58⟩
def sub : Opcode := ⟨0x59⟩
def mul : Opcode := ⟨0x5A⟩
def div : Opcode := ⟨0x5B⟩
def div_un : Opcode := ⟨0x5C⟩
def rem : Opcode := ⟨0x5D⟩
def rem_un : Opcode := ⟨0x5E⟩
def and : Opcode := ⟨0x5F⟩
def or : Opcode := ⟨0x60⟩
def xor : Opcode := ⟨0x61⟩
def shl : Opcode := ⟨0x62⟩
def shr : Opcode := ⟨0x63⟩
def shr_un : Opcode := ⟨0x64⟩
def neg : Opcode := ⟨0x65⟩
def not : Opcode := ⟨0x66⟩
def conv_i1 : Opcode := ⟨0x67⟩
def conv_i2 : Opcode := ⟨0x68⟩
def conv_i4 : Opcode := ⟨0x69⟩
def conv_i8 : Opcode := ⟨0x6A⟩
def conv_r4 : Opcode := ⟨0x6B⟩
def conv_r8 : Opcode := ⟨0x6C⟩
def conv_u4 : Opcode := ⟨0x6D⟩
def conv_u8 : Opcode := ⟨0x6E⟩
def callvirt : Opcode := ⟨0x6F⟩
def ldobj : Opcode := ⟨0x71⟩
def ldstr : Opcode := ⟨0x72⟩
def newobj : Opcode := ⟨0x73⟩
def castclass : Opcode := ⟨0x74⟩
def isinst : Opcode := ⟨0x75⟩
def conv_r_un : Opcode := ⟨0x76⟩
def unbox : Opcode := ⟨0x79⟩
def throw : Opcode := ⟨0x7A⟩
def ldfld : Opcode := ⟨0x7B⟩
def ldflda : Opcode := ⟨0x7C⟩
def stfld : Opcode := ⟨0x7D⟩
def ldsfld : Opcode := ⟨0x7E⟩
def ldsflda : Opcode := ⟨0x7F⟩
def stsfld : Opcode := ⟨0x80⟩
def stobj : Opcode := ⟨0x81⟩
def conv_ovf_i1_un : Opcode := ⟨0x82⟩
def conv_ovf_i2_un : Opcode := ⟨0x83⟩
def conv_ovf_i4_un : Opcode := ⟨0x84⟩
def conv_ovf_i8_un : Opcode := ⟨0x85⟩
def conv_ovf_u1_un : Opcode := ⟨0x86⟩
def conv_ovf_u2_un : Opcode := ⟨0x87⟩
def conv_ovf_u4_un : Opcode := ⟨0x88⟩
def conv_ovf_u8_un : Opcode := ⟨0x89⟩
def conv_ovf_i_un : Opcode := ⟨0x8A⟩
def conv_ovf_u_un : Opcode := ⟨0x8B⟩
def box : Opcode := ⟨0x8C⟩
def newarr : Opcode := ⟨0x8D⟩
def ldlen : Opcode := ⟨0x8E⟩
def ldelema : Opcode := ⟨0x8F⟩
def ldelem_i1 : Opcode := ⟨0x90⟩
def ldelem_u1 : Opcode := ⟨0x91⟩
def ldelem_i2 : Opcode := ⟨0x92⟩
def ldelem_u2 : Opcode := ⟨0x93⟩
def ldelem_i4 : Opcode := ⟨0x94⟩
def ldelem_u4 : Opcode := ⟨0x95⟩
def ldelem_i8 : Opcode := ⟨0x96⟩
def ldelem_i : Opcode := ⟨0x97⟩
def ldelem_r4 : Opcode := ⟨0x98⟩
def ldelem_r8 : Opcode := ⟨0x99⟩
def ldelem_ref : Opcode := ⟨0x9A⟩
def stelem_i : Opcode := ⟨0x9B⟩
def stelem_i1 : Opcode := ⟨0x9C⟩
def stelem_i2 : Opcode := ⟨0x9D⟩
def stelem_i4 : Opcode := ⟨0x9E⟩
def stelem_i8 : Opcode := ⟨0x9F⟩
def stelem_r4 : Opcode := ⟨0xA0⟩
def stelem_r8 : Opcode := ⟨0xA1⟩
def stelem_ref : Opcode := ⟨0xA2⟩
def ldelem : Opcode := ⟨0xA3⟩
def stelem : Opcode := ⟨0xA4⟩
def unbox_any : Opcode := ⟨0xA5⟩
def conv_ovf_i1 : Opcode := ⟨0xB3⟩
def conv_ovf_u1 : Opcode := ⟨0xB4⟩
def conv_ovf_i2 : Opcode := ⟨0xB5⟩
def conv_ovf_u2 : Opcode := ⟨0xB6⟩
def conv_ovf_i4 : Opcode := ⟨0xB7⟩
def conv_ovf_u4 : Opcode := ⟨0xB8⟩
def conv_ovf_i8 : Opcode := ⟨0xB9⟩
def conv_ovf_u8 : Opcode := ⟨0xBA⟩
def ldtoken : Opcode := ⟨0xD0⟩
def conv_u2 : Opcode := ⟨0xD1⟩
def conv_u1 : Opcode := ⟨0xD2⟩
def conv_i : Opcode := ⟨0xD3⟩
def conv_ovf_i : Opcode := ⟨0xD4⟩
def conv_ovf_u : Opcode := ⟨0xD5⟩
def add_ovf : Opcode := ⟨0xD6⟩
def add_ovf_un : Opcode := ⟨0xD7⟩
def mul_ovf : Opcode := ⟨0xD8⟩
def mul_ovf_un : Opcode := ⟨0xD9⟩
def sub_ovf : Opcode := ⟨0xDA⟩
def sub_ovf_un : Opcode := ⟨0xDB⟩
def endfinally : Opcode := ⟨0xDC⟩
def leave : Opcode := ⟨0xDD⟩
def leave_s : Opcode := ⟨0xDE⟩
def stind_i : Opcode := ⟨0xDF⟩
def conv_u : Opcode := ⟨0xE0⟩
def ceq : Opcode := ⟨0xFE01⟩
def cgt : Opcode := ⟨0xFE02⟩
def cgt_un : Opcode := ⟨0xFE03⟩
def clt : Opcode := ⟨0xFE04⟩
def clt_un : Opcode := ⟨0xFE05⟩
def ldftn : Opcode := ⟨0xFE06⟩
def ldvirtftn : Opcode := ⟨0xFE07⟩
def ldarg : Opcode := ⟨0xFE09⟩
def ldarga : Opcode := ⟨0xFE0A⟩
def starg : Opcode := ⟨0xFE0B⟩
def ldloc : Opcode := ⟨0xFE0C⟩
def ldloca : Opcode := ⟨0xFE0D⟩
def stloc : Opcode := ⟨0xFE0E⟩
def localloc : Opcode := ⟨0xFE0F⟩
def endfilter : Opcode := ⟨0xFE11⟩
def volatile : Opcode := ⟨0xFE13⟩
def tail : Opcode := ⟨0xFE14⟩
def initobj : Opcode := ⟨0xFE15⟩
def constrained : Opcode := ⟨0xFE16⟩
def rethrow : Opcode := ⟨0xFE1A⟩
def sizeof : Opcode := ⟨0xFE1C⟩

/-- The one- or two-byte form of an opcode. -/
def bytes (op : Opcode) : Bytes :=
  if op.value.toNat < 0x100 then [op.value.toUInt8] else [0xFE, op.value.toUInt8]

/-- The opcode `n` places further on, for the families that number their operand. -/
def plus (op : Opcode) (n : Nat) : Opcode := ⟨op.value + UInt16.ofNat n⟩

/-- The short form of a branch opcode. -/
def short? (op : Opcode) : Option Opcode :=
  if br.value ≤ op.value ∧ op.value ≤ blt_un.value then some ⟨op.value - (br.value - br_s.value)⟩
  else if op = leave then some leave_s
  else none

/-- Whether control never goes on to the instruction behind this one. -/
def transfers (op : Opcode) : Bool :=
  [ret, throw, rethrow, br, br_s, leave, leave_s, endfinally, endfilter, jmp].contains op

end Opcode
end Cil
