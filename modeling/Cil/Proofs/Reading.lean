import Cil.Code.Layout
import Cil.Token

/-!
Reading code back. The instruction set tells what follows each opcode; `Reading.read` takes one
instruction from the front of some bytes, and `disassemble` reads on until the code ends. Nothing here
knows how the code was written.
-/

namespace Cil

open List

variable {op : Opcode}

/-- What the token of an instruction names. -/
inductive TokenKind | type | field | method | signature | string | any
  deriving DecidableEq

/-- What follows an opcode. -/
inductive OperandKind
  | nothing
  /-- A number, or the number of a slot. -/
  | number (width : Nat)
  | token (kind : TokenKind)
  /-- The distance of a target. -/
  | target (width : Nat)
  /-- The number of targets and their distances. -/
  | switch
  deriving DecidableEq

def OperandKind.plainSize? : OperandKind → Option Nat
  | nothing => some 0
  | number width => some width
  | token _ => some 4
  | target _ | switch => none

variable {kind : OperandKind}

namespace Opcode

def operandRanges : List (Nat × Nat × OperandKind) :=
  [(0x00, 0x0D, .nothing), (0x0E, 0x13, .number 1), (0x14, 0x1E, .nothing), (0x1F, 0x1F, .number 1),
    (0x20, 0x20, .number 4), (0x21, 0x21, .number 8), (0x22, 0x22, .number 4),
    (0x23, 0x23, .number 8), (0x25, 0x26, .nothing), (0x27, 0x28, .token .method),
    (0x29, 0x29, .token .signature), (0x2A, 0x2A, .nothing), (0x2B, 0x37, .target 1),
    (0x38, 0x44, .target 4), (0x45, 0x45, .switch), (0x46, 0x6E, .nothing),
    (0x6F, 0x6F, .token .method), (0x70, 0x71, .token .type), (0x72, 0x72, .token .string),
    (0x73, 0x73, .token .method), (0x74, 0x75, .token .type), (0x76, 0x76, .nothing),
    (0x79, 0x79, .token .type), (0x7A, 0x7A, .nothing), (0x7B, 0x80, .token .field),
    (0x81, 0x81, .token .type), (0x82, 0x8B, .nothing), (0x8C, 0x8D, .token .type),
    (0x8E, 0x8E, .nothing), (0x8F, 0x8F, .token .type), (0x90, 0xA2, .nothing),
    (0xA3, 0xA5, .token .type), (0xB3, 0xBA, .nothing), (0xC2, 0xC2, .token .type),
    (0xC3, 0xC3, .nothing), (0xC6, 0xC6, .token .type), (0xD0, 0xD0, .token .any),
    (0xD1, 0xDC, .nothing), (0xDD, 0xDD, .target 4), (0xDE, 0xDE, .target 1),
    (0xDF, 0xE0, .nothing), (0xFE00, 0xFE05, .nothing), (0xFE06, 0xFE07, .token .method),
    (0xFE09, 0xFE0E, .number 2), (0xFE0F, 0xFE0F, .nothing), (0xFE11, 0xFE11, .nothing),
    (0xFE12, 0xFE12, .number 1), (0xFE13, 0xFE14, .nothing), (0xFE15, 0xFE16, .token .type),
    (0xFE17, 0xFE18, .nothing), (0xFE19, 0xFE19, .number 1), (0xFE1A, 0xFE1A, .nothing),
    (0xFE1C, 0xFE1C, .token .type), (0xFE1D, 0xFE1E, .nothing)]

def operand? (op : Opcode) : Option OperandKind :=
  (operandRanges.find? fun (first, last, _) =>
    first ≤ op.value.toNat && op.value.toNat ≤ last).map (·.2.2)

theorem value_of_operand? (h : op.operand? = some kind) :
    op.value.toNat < 0xFE ∨ (0xFE00 ≤ op.value.toNat ∧ op.value.toNat < 0xFF00) := by
  have bounds : ∀ r ∈ operandRanges, r.2.1 < 0xFE ∨ (0xFE00 ≤ r.1 ∧ r.2.1 < 0xFF00) := by
    decide
  rw [operand?, Option.map_eq_some_iff] at h
  obtain ⟨⟨first, last, _⟩, found, _⟩ := h
  have hr := bounds _ (mem_of_find?_eq_some found)
  have range := List.find?_some found
  simp only [Bool.and_eq_true, decide_eq_true_eq] at range hr
  omega

def read : Bytes → Option (Opcode × Bytes)
  | [] => none
  | b :: rest =>
    if b = 0xFE then
      match rest with
      | [] => none
      | c :: rest => some (⟨.ofNat (0xFE00 + c.toNat)⟩, rest)
    else some (⟨.ofNat b.toNat⟩, rest)

theorem read_bytes (h : op.operand? = some kind) (rest : Bytes) :
    read (op.bytes ++ rest) = some (op, rest) := by
  have low : op.value.toUInt8.toNat = op.value.toNat % 256 := rfl
  obtain ⟨value⟩ := op
  rcases value_of_operand? h with short | ⟨first, last⟩
  · have one : (Opcode.mk value).bytes = [value.toUInt8] := by
      rw [bytes, if_pos (Nat.lt_trans short (by decide))]
    have notPrefixed : value.toUInt8 ≠ 0xFE := by
      intro eq
      have := congrArg UInt8.toNat eq
      simp only [low, UInt8.toNat_ofNat] at this short
      omega
    simp only [one, cons_append, nil_append, read, if_neg notPrefixed, Option.some.injEq,
      Prod.mk.injEq, mk.injEq, and_true]
    apply UInt16.toNat_inj.1
    simp only [low, UInt16.toNat_ofNat'] at short ⊢
    omega
  · have two : (Opcode.mk value).bytes = [0xFE, value.toUInt8] := by
      rw [bytes, if_neg (by simp only at first ⊢; omega)]
    simp only [two, cons_append, nil_append, read, if_true, Option.some.injEq,
      Prod.mk.injEq, mk.injEq, and_true]
    apply UInt16.toNat_inj.1
    simp only [low, UInt16.toNat_ofNat'] at first last ⊢
    omega

end Opcode

namespace Bytes

def toInt (bytes : Bytes) : Int :=
  if 2 * ofLe bytes < Nat.pow 256 bytes.length then ofLe bytes
  else ofLe bytes - Nat.pow 256 bytes.length

def split? (count : Nat) (bytes : Bytes) : Option (Bytes × Bytes) :=
  if count ≤ bytes.length then some (bytes.take count, bytes.drop count) else none

@[simp] theorem split?_append (front rest : Bytes) :
    split? front.length (front ++ rest) = some (front, rest) := by
  simp [split?]

theorem ofLe_signed (width : Nat) (n : Int) :
    (ofLe (Code.Layout.signed width n) : Int) = n % Nat.pow 256 width := by
  have positive : 0 < Nat.pow 256 width := Nat.pow_pos (by decide)
  have below := Int.emod_lt_of_pos n (show (0 : Int) < Nat.pow 256 width by omega)
  have above := Int.emod_nonneg n (show (Nat.pow 256 width : Int) ≠ 0 by omega)
  rw [Code.Layout.signed, ofLe_le, Nat.mod_eq_of_lt (by omega), Int.toNat_of_nonneg above]

theorem toInt_signed_emod (width : Nat) (n : Int) :
    toInt (Code.Layout.signed width n) % Nat.pow 256 width = n % Nat.pow 256 width := by
  have length : (Code.Layout.signed width n).length = width := length_le ..
  rw [toInt, length]
  split
  · rw [ofLe_signed, Int.emod_emod_of_dvd n (Int.dvd_refl _)]
  · rw [ofLe_signed, Int.sub_emod_right, Int.emod_emod_of_dvd n (Int.dvd_refl _)]

theorem toInt_signed (width : Nat) (n : Int) (low : -Nat.pow 256 width ≤ 2 * n)
    (high : 2 * n < Nat.pow 256 width) : toInt (Code.Layout.signed width n) = n := by
  have length : (Code.Layout.signed width n).length = width := length_le ..
  have positive : 0 < Nat.pow 256 width := Nat.pow_pos (by decide)
  have value := ofLe_signed width n
  rw [toInt, length]
  by_cases negative : n < 0
  · have wrapped : n % (Nat.pow 256 width : Int) = n + Nat.pow 256 width := by
      rw [← Int.add_emod_right, Int.emod_eq_of_lt (by omega) (by omega)]
    rw [if_neg (by omega)]
    omega
  · have same : n % (Nat.pow 256 width : Int) = n := Int.emod_eq_of_lt (by omega) (by omega)
    rw [if_pos (by omega)]
    omega

end Bytes

/-- An instruction as it is read from code. -/
inductive Reading
  | plain (op : Opcode) (operand : Bytes)
  /-- An instruction with one target, and its distance from the place behind the instruction. -/
  | branch (op : Opcode) (distance : Int)
  | switch (distances : List Int)
  deriving DecidableEq

namespace Reading

def distances : (count : Nat) → Bytes → Option (List Int × Bytes)
  | 0, bytes => some ([], bytes)
  | count + 1, bytes => do
    let (entry, rest) ← bytes.split? 4
    let (more, rest) ← distances count rest
    return (entry.toInt :: more, rest)

def readOperand (op : Opcode) (bytes : Bytes) : OperandKind → Option (Reading × Bytes)
  | .nothing => some (plain op [], bytes)
  | .number width => do
    let (operand, rest) ← bytes.split? width
    return (plain op operand, rest)
  | .token _ => do
    let (operand, rest) ← bytes.split? 4
    return (plain op operand, rest)
  | .target width => do
    let (operand, rest) ← bytes.split? width
    return (branch op operand.toInt, rest)
  | .switch => do
    let (count, rest) ← bytes.split? 4
    let (targets, rest) ← distances count.ofLe rest
    return (switch targets, rest)

def read (bytes : Bytes) : Option (Reading × Bytes) := do
  let (op, rest) ← Opcode.read bytes
  readOperand op rest (← op.operand?)

def sweep : (fuel : Nat) → (offset : Nat) → Bytes → Option (List (Nat × Reading))
  | _, _, [] => some []
  | 0, _, _ :: _ => none
  | fuel + 1, offset, b :: bytes => do
    let (reading, rest) ← read (b :: bytes)
    return (offset, reading) :: (← sweep fuel (offset + ((b :: bytes).length - rest.length)) rest)

/-- All instructions of some code, each with its offset. Every instruction has a byte at least, so
that the size of the code is enough fuel. -/
def disassemble (code : Bytes) : Option (List (Nat × Reading)) := sweep code.length 0 code

variable {operand : Bytes} {α : Type}

theorem read_plain (known : op.operand? = some kind) (size : kind.plainSize? = some operand.length)
    (rest : Bytes) : read (op.bytes ++ operand ++ rest) = some (plain op operand, rest) := by
  rw [read, append_assoc, Opcode.read_bytes known]
  cases kind with
  | nothing =>
    cases operand with
    | nil => simp [known, readOperand]
    | cons b operand => simp [OperandKind.plainSize?] at size
  | number | token =>
    simp only [OperandKind.plainSize?, Option.some.injEq] at size
    simp [known, readOperand, size]
  | target | switch => cases size

theorem read_target (known : op.operand? = some (.target operand.length)) (rest : Bytes) :
    read (op.bytes ++ operand ++ rest) = some (branch op operand.toInt, rest) := by
  rw [read, append_assoc, Opcode.read_bytes known]
  simp [known, readOperand]

theorem distances_flatMap (entry : α → Bytes) (size : ∀ a, (entry a).length = 4) (as : List α)
    (rest : Bytes) :
    distances as.length (as.flatMap entry ++ rest) = some (as.map fun a => (entry a).toInt, rest) := by
  induction as with
  | nil => rfl
  | cons a as ih =>
    have first := Bytes.split?_append (entry a) (as.flatMap entry ++ rest)
    rw [size] at first
    simp [distances, first, ih]

theorem read_switch (entry : α → Bytes) (size : ∀ a, (entry a).length = 4) (as : List α)
    (few : as.length < 0x100000000) (rest : Bytes) :
    read (Opcode.switch.bytes ++ Bytes.le 4 as.length ++ as.flatMap entry ++ rest) =
      some (switch (as.map fun a => (entry a).toInt), rest) := by
  have known : Opcode.switch.operand? = some .switch := rfl
  have first := Bytes.split?_append (Bytes.le 4 as.length) (as.flatMap entry ++ rest)
  rw [Bytes.length_le] at first
  have count : Bytes.ofLe (Bytes.le 4 as.length) = as.length := by
    rw [Bytes.ofLe_le]
    exact Nat.mod_eq_of_lt few
  rw [read, append_assoc, append_assoc, Opcode.read_bytes known]
  simp [known, readOperand, first, count, distances_flatMap entry size]

theorem sweep_append {front rest : Bytes} {reading : Reading} (nonempty : 0 < front.length)
    (h : read (front ++ rest) = some (reading, rest)) (fuel offset : Nat) :
    sweep (fuel + 1) offset (front ++ rest) =
      (sweep fuel (offset + front.length) rest).map ((offset, reading) :: ·) := by
  cases front with
  | nil => cases nonempty
  | cons b front =>
    rw [cons_append] at h ⊢
    have taken : (b :: (front ++ rest)).length - rest.length = (b :: front).length := by
      simp only [length_cons, length_append]
      omega
    rw [sweep, h, ← taken]
    simp only [Option.bind_eq_bind, Option.bind_some]
    cases sweep fuel (offset + ((b :: (front ++ rest)).length - rest.length)) rest <;> rfl

end Reading
end Cil
