import Cil.Proofs.BodyTokens
import Cil.Proofs.TableReading

/-!
Encoded methods are read back. The reader follows the standard: a header of one byte or of twelve, the
code, and at the next multiple of four bytes a section with the clauses, small or fat. It finds what was
encoded; of the stack that a tiny header leaves out, it finds that eight values are enough.
-/

namespace Cil

open Bytes TableStream Option

theorem readNumber_byte (b : UInt8) (rest : Bytes) :
    readNumber 1 (b :: rest) = some (b.toNat, rest) := by
  simp [readNumber, split?, ofLe]

namespace Clause

variable {cs : List Clause} {wide narrow : Nat} {c : Clause}

/-- The clause at the front, with offsets and lengths of these widths. -/
def read (wide narrow : Nat) (bytes : Bytes) : Option (Clause × Bytes) := do
  let (flags, rest) ← readNumber wide bytes
  let (tryOffset, rest) ← readNumber wide rest
  let (tryLength, rest) ← readNumber narrow rest
  let (handlerOffset, rest) ← readNumber wide rest
  let (handlerLength, rest) ← readNumber narrow rest
  let (classOrFilter, rest) ← readNumber 4 rest
  return (⟨.ofNat flags, tryOffset, tryLength, handlerOffset, handlerLength, .ofNat classOrFilter⟩,
    rest)

def readAll (wide narrow : Nat) : Nat → Bytes → Option (List Clause × Bytes)
  | 0, bytes => some ([], bytes)
  | n + 1, bytes => do
    let (clause, rest) ← read wide narrow bytes
    let (clauses, rest) ← readAll wide narrow n rest
    return (clause :: clauses, rest)

/-- The section behind the code. Its size counts the four bytes in front. -/
def readSection (bytes : Bytes) : Option (List Clause × Bytes) := do
  let (kind, rest) ← readNumber 1 bytes
  if kind = 0x41 then
    let (size, rest) ← readNumber 3 rest
    readAll 4 4 ((size - 4) / 24) rest
  else if kind = 0x01 then
    let (size, rest) ← readNumber 1 rest
    let (_, rest) ← readNumber 2 rest
    readAll 2 1 ((size - 4) / 12) rest
  else none

/-- The fields of a clause have room in these widths. -/
structure Fits (wide narrow : Nat) (c : Clause) : Prop where
  flags : c.flags.toNat < Nat.pow 256 wide
  tryOffset : c.tryOffset < Nat.pow 256 wide
  tryLength : c.tryLength < Nat.pow 256 narrow
  handlerOffset : c.handlerOffset < Nat.pow 256 wide
  handlerLength : c.handlerLength < Nat.pow 256 narrow

/-- The fields of a clause in these widths. -/
def parts (wide narrow : Nat) (c : Clause) : List Bytes :=
  [le wide c.flags.toNat, le wide c.tryOffset, le narrow c.tryLength, le wide c.handlerOffset,
    le narrow c.handlerLength, le 4 c.classOrFilter.toNat]

theorem read_parts (h : c.Fits wide narrow) (rest : Bytes) :
    read wide narrow ((c.parts wide narrow).flatten ++ rest) = some (c, rest) := by
  have token : c.classOrFilter.toNat < Nat.pow 256 4 := c.classOrFilter.toNat_lt
  simp only [read, parts, List.flatten_cons, List.flatten_nil, List.append_nil, List.append_assoc,
    readNumber_le h.flags, readNumber_le h.tryOffset, readNumber_le h.tryLength,
    readNumber_le h.handlerOffset, readNumber_le h.handlerLength, readNumber_le token,
    bind_eq_bind, bind_some]
  simp

theorem readAll_parts (h : ∀ c ∈ cs, c.Fits wide narrow) :
    readAll wide narrow cs.length (cs.flatMap (parts wide narrow)).flatten = some (cs, []) := by
  induction cs with
  | nil => rfl
  | cons c cs ih =>
    obtain ⟨first, others⟩ := List.forall_mem_cons.1 h
    simp [readAll, read_parts first, ih others]

/-- One of the four kinds of clauses, at offsets below 2^32. -/
structure Sized (c : Clause) : Prop where
  flags : c.flags ∈ [typedFlag, filterFlag, finallyFlag, faultFlag]
  places : ∀ n ∈ [c.tryOffset, c.tryLength, c.handlerOffset, c.handlerLength], n < 0x100000000

theorem Sized.fits (h : c.Sized) : c.Fits 4 4 ∧ (c.fitsSmall = true → c.Fits 2 1) := by
  have flags : c.flags.toNat ≤ 4 := by
    have kinds := h.flags
    simp only [List.mem_cons, List.not_mem_nil, or_false] at kinds
    rcases kinds with h | h | h | h <;> rw [h] <;> decide
  have places := h.places
  simp only [List.forall_mem_cons, List.not_mem_nil, false_imp_iff, implies_true, and_true] at places
  refine ⟨⟨?_, places.1, places.2.1, places.2.2.1, places.2.2.2⟩, fun small => ?_⟩
  · exact Nat.lt_of_le_of_lt flags (by decide)
  · simp only [fitsSmall, Bool.and_eq_true, decide_eq_true_eq] at small
    obtain ⟨⟨⟨tryOffset, handlerOffset⟩, tryLength⟩, handlerLength⟩ := small
    exact ⟨Nat.lt_of_le_of_lt flags (by decide), Nat.lt_succ_of_le tryOffset,
      Nat.lt_succ_of_le tryLength,
      Nat.lt_succ_of_le handlerOffset, Nat.lt_succ_of_le handlerLength⟩

theorem readSection_small (size : 4 + cs.length * 12 ≤ 0xFF) (fits : ∀ c ∈ cs, c.Fits 2 1) :
    readSection ([0x01, .ofNat (4 + cs.length * 12), 0, 0] ++ (cs.flatMap (parts 2 1)).flatten) =
      some (cs, []) := by
  have count : (4 + cs.length * 12 - 4) / 12 = cs.length := by omega
  have value : (UInt8.ofNat (4 + cs.length * 12)).toNat = 4 + cs.length * 12 :=
    UInt8.toNat_ofNat_of_lt' (Nat.lt_succ_of_le size)
  have padding (rest : Bytes) : readNumber 2 (0 :: 0 :: rest) = some (0, rest) := rfl
  simp only [readSection, readNumber_byte, padding, value, count, List.cons_append, List.nil_append,
    bind_eq_bind, bind_some, readAll_parts fits]
  rfl

theorem readSection_fat (size : 4 + cs.length * 24 ≤ 0xFFFFFF) (fits : ∀ c ∈ cs, c.Fits 4 4) :
    readSection ((0x41 :: le 3 (4 + cs.length * 24)) ++ (cs.flatMap (parts 4 4)).flatten) =
      some (cs, []) := by
  have value : 4 + cs.length * 24 < Nat.pow 256 3 := Nat.lt_succ_of_le size
  simp [readSection, readNumber_byte, readNumber_le value, readAll_parts fits]

/-- The section is refused only if it has to be fat and is too long. Otherwise it is read back. -/
theorem sectionFields_cases (sized : ∀ c ∈ cs, c.Sized) :
    (∃ parts : List Bytes, sectionFields cs = parts.map .ok ∧
    readSection parts.flatten = some (cs, []) ∧
      ¬ (allSmall cs = false ∧ 0xFFFFFF < 4 + 24 * cs.length)) ∨
    (∃ e, sectionFields cs = [.error e]) ∧ allSmall cs = false ∧ 0xFFFFFF < 4 + 24 * cs.length := by
  unfold sectionFields
  split
  case isTrue small =>
    have fits : 4 + cs.length * 12 ≤ 0xFF ∧
        ∀ c ∈ cs, c.fitsSmall = true := by simpa [allSmall] using small
    refine .inl ⟨[0x01, .ofNat (4 + cs.length * 12), 0, 0] :: cs.flatMap (parts 2 1), ?_,
      ?_, by simp [small]⟩
    · rw [List.map_cons, List.map_flatMap]
      rfl
    · exact readSection_small fits.1 fun c hc => (sized c hc).fits.2 (fits.2 c hc)
  case isFalse large =>
    split
    case isTrue room =>
      refine .inl ⟨(0x41 :: le 3 (4 + cs.length * 24)) :: cs.flatMap (parts 4 4), ?_, ?_, by omega⟩
      · rw [List.map_cons, List.map_flatMap]
        rfl
      · exact readSection_fat room fun c hc => (sized c hc).fits.1
    case isFalse full => exact .inr ⟨⟨_, rfl⟩, by simpa using large, by omega⟩

end Clause

namespace MethodBody

/-- The clauses behind the padding that follows the code, if the header tells of any. -/
def readClauses (more : Bool) (size : Nat) (bytes : Bytes) : Option (List Clause × Bytes) :=
  if more then do
    let (_, rest) ← split? (padding 4 (12 + size)) bytes
    Clause.readSection rest
  else some ([], bytes)

/-- The method at the front. -/
def read (bytes : Bytes) : Option (MethodBody × Bytes) := do
  let (first, rest) ← readNumber 1 bytes
  if first % 4 = 2 then
    let (code, rest) ← split? (first / 4) rest
    return ({ code, maxStack := 8 }, rest)
  else
    let (second, rest) ← readNumber 1 rest
    let (maxStack, rest) ← readNumber 2 rest
    let (size, rest) ← readNumber 4 rest
    let (localSignature, rest) ← readNumber 4 rest
    let (code, rest) ← split? size rest
    if first % 4 ≠ 3 ∨ second / 16 ≠ 3 then none
    let (clauses, rest) ← readClauses (first / 8 % 2 = 1) size rest
    return (⟨code, .ofNat maxStack, .ofNat localSignature, first / 16 % 2 = 1, clauses⟩, rest)

/-- The low byte of a header of twelve bytes. -/
def lowFlags (m : MethodBody) : UInt8 :=
  3 + (if m.initLocals then 0x10 else 0) + (if m.clauses.isEmpty then 0 else 0x8)

/-- The stack that a reader finds. -/
def readStack (m : MethodBody) : UInt16 :=
  match m.header with
  | .tiny _ => 8
  | .fat .. => m.maxStack

theorem readStack_cases (m : MethodBody) : m.readStack = m.maxStack ∨
    (∃ size, m.header = .tiny size) ∧ m.readStack = 8 ∧ m.maxStack ≤ 8 := by
  cases shape : m.header with
  | fat flags maxStack size localSignature => exact .inl (by rw [readStack, shape])
  | tiny size =>
    refine .inr ⟨⟨size, rfl⟩, by rw [readStack, shape], ?_⟩
    rw [header] at shape
    split at shape
    case isTrue tiny =>
      simp only [Bool.and_eq_true, decide_eq_true_eq] at tiny
      exact UInt16.le_iff_toNat_le.2 tiny.1.1.1.2
    case isFalse => cases shape

theorem read_fat {m : MethodBody} (short : m.code.length < 0x100000000) {rest : Bytes}
    (found : readClauses (!m.clauses.isEmpty) m.code.length rest = some (m.clauses, [])) :
    read (m.lowFlags :: 0x30 :: (le 2 m.maxStack.toNat ++ (le 4 m.code.length ++
      (le 4 m.localSignature.toNat ++ (m.code ++ rest))))) = some (m, []) := by
  have size : m.code.length < Nat.pow 256 4 := short
  have stack : m.maxStack.toNat < Nat.pow 256 2 := m.maxStack.toNat_lt
  have token : m.localSignature.toNat < Nat.pow 256 4 := m.localSignature.toNat_lt
  have flags : m.lowFlags.toNat % 4 = 3 ∧ decide (m.lowFlags.toNat / 16 % 2 = 1) = m.initLocals ∧
      decide (m.lowFlags.toNat / 8 % 2 = 1) = !m.clauses.isEmpty := by
    unfold lowFlags
    cases m.initLocals <;> cases m.clauses <;> simp
  have large : ¬ m.lowFlags.toNat % 4 = 2 := by omega
  have bad : ¬ (m.lowFlags.toNat % 4 ≠ 3 ∨ (48 : UInt8).toNat / 16 ≠ 3) := by simp [flags.1]
  simp only [read, readNumber_byte, readNumber_le stack, readNumber_le size, readNumber_le token,
    split?_append, bind_eq_bind, bind_some, if_neg large, if_neg bad, flags.2, found]
  simp

/-- The reader finds its way from the header to the code and the clauses. -/
theorem header_fields {m : MethodBody} (short : m.code.length < 0x100000000) :
    ∃ parts : List Bytes, m.header.fields = parts.map .ok ∧
      ∀ rest, readClauses (!m.clauses.isEmpty) m.code.length rest = some (m.clauses, []) →
        read (parts.flatten ++ (m.code ++ rest)) = some ({ m with maxStack := m.readStack }, []) := by
  unfold readStack header
  split
  case isTrue tiny =>
    simp only [Bool.and_eq_true, decide_eq_true_eq, beq_iff_eq, List.isEmpty_iff,
      Bool.not_eq_true'] at tiny
    obtain ⟨⟨⟨⟨size, stack⟩, token⟩, locals⟩, clauses⟩ := tiny
    refine ⟨[[.ofNat (m.code.length * 4 + 2)]], rfl, fun rest found => ?_⟩
    obtain rfl : rest = [] := by simpa [readClauses, clauses] using found
    have value : (UInt8.ofNat (m.code.length * 4 + 2)).toNat = m.code.length * 4 + 2 :=
      UInt8.toNat_ofNat_of_lt' (by unfold UInt8.size; omega)
    have count : (m.code.length * 4 + 2) / 4 = m.code.length := by omega
    have kind : (m.code.length * 4 + 2) % 4 = 2 := by omega
    have code := split?_append m.code []
    simp only [read, List.flatten_singleton, List.singleton_append, readNumber_byte, value, count,
      if_pos kind,
      code, bind_eq_bind, bind_some, token, locals, clauses]
    rfl
  case isFalse =>
    refine ⟨[[m.lowFlags, 0x30], le 2 m.maxStack.toNat, le 4 m.code.length,
      le 4 m.localSignature.toNat],
      ?_, fun rest found => by simpa using read_fat short found⟩
    have flags : ∀ locals none : Bool, le 2 ((UInt16.ofNat (MethodHeader.fatFormat +
        (if locals then MethodHeader.initLocals else 0) +
          if none then 0 else MethodHeader.moreSections)).toNat ||| 0x3000) =
        [3 + (if locals then 0x10 else 0) + if none then 0 else 0x8, 0x30] := by decide
    rw [MethodHeader.fields, if_neg (by omega), Field.half, flags m.initLocals m.clauses.isEmpty]
    rfl

/-- A method is refused only if its clauses need a fat section that would be too long. Otherwise the reader
finds all of it again, the stack as it was given or, behind a tiny header, eight values that are enough. -/
theorem encoded_reads_back {m : MethodBody} (short : m.code.length < 0x100000000)
    (sized : ∀ c ∈ m.clauses, c.Sized) :
    ((∃ e, m.encode = .error e) ↔
      Clause.allSmall m.clauses = false ∧ 0xFFFFFF < 4 + 24 * m.clauses.length) ∧
    ∀ bytes, m.encode = .ok bytes → ∃ maxStack, read bytes = some ({ m with maxStack }, []) ∧
      (maxStack = m.maxStack ∨ (∃ size, m.header = .tiny size) ∧ maxStack = 8 ∧ m.maxStack ≤ 8) := by
  obtain ⟨front, fields, reads⟩ := header_fields short
  by_cases none : m.clauses = []
  case pos =>
    have encoded : m.encode = .ok (front ++ [m.code]).flatten := by
      rw [encode, MethodBody.fields, fields, if_pos (by simp [none]), ← Field.join_map_ok,
        List.map_append]
      rfl
    rw [encoded]
    refine ⟨by simp [none, Clause.allSmall], ?_⟩
    rintro _ ⟨⟩
    refine ⟨m.readStack, ?_, m.readStack_cases⟩
    simpa using reads [] (by simp [readClauses, none])
  case neg =>
    generalize behind : zeros (padding 4 (12 + m.code.length)) = pad
    have encoded : m.encode =
        Field.join ((front ++ [m.code, pad]).map .ok ++ Clause.sectionFields m.clauses) := by
      have long : m.header.length = 12 := by simp [header, none, MethodHeader.length]
      rw [encode, MethodBody.fields, fields, if_neg (by simp [none]), long, behind]
      simp
    rcases Clause.sectionFields_cases sized with ⟨parts, same, whole, room⟩ | ⟨⟨e, refused⟩, large⟩
    · rw [same, ← List.map_append, Field.join_map_ok] at encoded
      rw [encoded]
      refine ⟨by simp [room], ?_⟩
      rintro _ ⟨⟩
      have skip := split?_append pad parts.flatten
      rw [← behind, length_zeros, behind] at skip
      refine ⟨m.readStack, ?_, m.readStack_cases⟩
      simpa using reads (pad ++ parts.flatten) (by simp [readClauses, none, skip, whole])
    · have fails {bytes : Bytes} : m.encode ≠ .ok bytes := by
        intro h
        rw [encoded, refused] at h
        obtain ⟨b, same⟩ := Field.exists_of_join h (List.mem_append_right _ List.mem_cons_self)
        cases same
      refine ⟨⟨fun _ => large, fun _ => ?_⟩, fun bytes h => absurd h fails⟩
      cases h : m.encode with
      | ok bytes => exact absurd h fails
      | error e => exact ⟨e, rfl⟩

/-- A method of which one clause needs the fat section. -/
def guarded : MethodBody where
  code := [0x00, 0x00, 0xDC, 0x2A]
  maxStack := 3
  localSignature := 0x11000001
  clauses := [⟨Clause.finallyFlag, 0, 1, 1, 2, 0⟩, ⟨Clause.filterFlag, 0x10000, 0x100, 2, 1, 0x20⟩]

theorem encoded_reads_back_guarded : ∃ bytes, guarded.encode = .ok bytes ∧
    ∃ maxStack, read bytes = some ({ guarded with maxStack }, []) ∧ maxStack = 3 := by
  have sized : ∀ c ∈ guarded.clauses, c.Sized := by
    simp only [guarded, List.forall_mem_cons]
    exact ⟨⟨by decide, by decide⟩, ⟨by decide, by decide⟩, by simp⟩
  obtain ⟨maxStack, found, same | ⟨⟨size, tiny⟩, _⟩⟩ := (encoded_reads_back (by decide) sized).2 _ rfl
  · exact ⟨_, rfl, maxStack, found, same⟩
  · cases tiny

end MethodBody
end Cil
