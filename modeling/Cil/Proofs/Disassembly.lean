import Cil.Proofs.Reading
import Cil.Proofs.Relaxation

/-!
Code reads back as it was laid out: a sweep over the bytes meets the instructions in their order, each
at its offset. Once the code has settled, every target is as far away as the layout says.
-/

namespace Cil

/-- An instruction with no targets is one of the instruction set with an operand of the size that it
takes. -/
def Instruction.WellFormed : Instruction → Prop
  | .simple op operand =>
    ∃ kind, op.operand? = some kind ∧ kind.plainSize? = some operand.length
  | .branch .. | .switch _ => True

theorem Branch.operand?_short (b : Branch) : b.short.operand? = some (.target 1) := by
  cases b with
  | compare op unsigned => cases op <;> cases unsigned <;> rfl
  | always | leave | ifTrue | ifFalse => rfl

theorem Branch.operand?_long (b : Branch) : b.long.operand? = some (.target 4) := by
  cases b with
  | compare op unsigned => cases op <;> cases unsigned <;> rfl
  | always | leave | ifTrue | ifFalse => rfl

namespace Code
variable {k : Nat}

namespace Layout

def stored (l : Layout) (width position : Nat) (target : Label) : Int :=
  Bytes.toInt (signed width (l.distance position target))

def reading (l : Layout) (position : Nat) : Instruction → Reading
  | .simple op operand => .plain op operand
  | .branch b target _ =>
    if l.hasShortBranch position then .branch b.short (l.stored 1 position target)
    else .branch b.long (l.stored 4 position target)
  | .switch targets => .switch (targets.map (l.stored 4 position))

def listingFrom (l : Layout) (position : Nat) : List (Nat × Reading) :=
  ((l.code.instructions.toList.drop position).zipIdx position).map fun (i, position) =>
    (l.offset position, l.reading position i)

theorem listingFrom_of_getElem? (l : Layout) {i : Instruction}
    (hi : l.code.instructions[k]? = some i) :
    l.listingFrom k = (l.offset k, l.reading k i) :: l.listingFrom (k + 1) := by
  simp [listingFrom, drop_instructions hi]

theorem listingFrom_stop (l : Layout) : l.listingFrom l.code.stop = [] := by
  rw [listingFrom, stop, List.drop_eq_nil_of_le (by simp)]
  rfl

end Layout

variable (code : Code)

theorem layout_offset_le_size (k : Nat) : code.layout.offset k ≤ code.layout.size := by
  by_cases hk : k ≤ code.stop
  · exact layout_offset_mono code hk (Nat.le_refl _)
  · have outside : code.layout.offsets[k]? = none := by
      apply Array.getElem?_eq_none
      rw [layout, size_offsetsFrom]
      simp [stop] at hk ⊢
      omega
    rw [Layout.offset, Array.getD_eq_getD_getElem?, outside]
    exact Nat.zero_le _

theorem layout_distance_bounds (k : Nat) (target : Label) :
    -(code.layout.size : Int) ≤ code.layout.distance k target ∧
      code.layout.distance k target ≤ code.layout.size := by
  rw [Layout.distance, Layout.distance?]
  cases code.layout.code.position? target with
  | none => simp
  | some p =>
    have := layout_offset_le_size code p
    have := layout_offset_le_size code (k + 1)
    simp only [Option.map_some, Option.getD_some]
    omega

theorem layout_stored_four (small : code.layout.size < 0x80000000) (k : Nat) (target : Label) :
    code.layout.stored 4 k target = code.layout.distance k target := by
  have := layout_distance_bounds code k target
  apply Bytes.toInt_signed <;> simp only [Nat.pow_eq, Nat.reducePow] at * <;> omega

theorem Settled.stored_one {code wider : Code} (settled : code.Settled wider) {b : Branch}
    {target : Label} {form : BranchForm}
    (hi : wider.instructions[k]? = some (.branch b target form))
    (short : wider.layout.hasShortBranch k = true) :
    wider.layout.stored 1 k target = wider.layout.distance k target := by
  have fits := settled.fitsShort hi short
  simp only [Layout.fitsShort, Bool.and_eq_true, decide_eq_true_eq] at fits
  apply Bytes.toInt_signed <;> simp only [Nat.pow_eq, Nat.reducePow] <;> omega

variable {code}

theorem read_instructionBytes (room : code.layout.size < 0x100000000) {i : Instruction}
    (hi : code.instructions[k]? = some i) (wellFormed : i.WellFormed) (rest : Bytes) :
    Reading.read (code.layout.instructionBytes k i ++ rest) =
      some (code.layout.reading k i, rest) := by
  cases i with
  | simple op operand =>
    obtain ⟨kind, known, size⟩ := wellFormed
    exact Reading.read_plain known size rest
  | branch b target form =>
    rw [Layout.instructionBytes, Layout.reading]
    split
    · rw [Reading.read_target (b.operand?_short.trans (by simp)), Layout.stored]
    · rw [Reading.read_target (b.operand?_long.trans (by simp)), Layout.stored]
  | switch targets =>
    have size := layout_offset_succ code hi
    have within := layout_offset_le_size code (k + 1)
    rw [Layout.instructionSize] at size
    rw [Layout.instructionBytes, Layout.reading, Reading.read_switch _ (by simp) _ (by omega)]
    rfl

theorem sweep_layout (room : code.layout.size < 0x100000000)
    (wellFormed : ∀ i ∈ code.instructions, i.WellFormed) (hk : k ≤ code.stop) {fuel : Nat}
    (enough : (code.layout.bytesFrom k).length ≤ fuel) :
    Reading.sweep fuel (code.layout.offset k) (code.layout.bytesFrom k) =
      some (code.layout.listingFrom k) := by
  obtain ⟨n, hn⟩ : ∃ n, code.stop = k + n := ⟨code.stop - k, by omega⟩
  induction n generalizing k fuel with
  | zero =>
    have here : k = code.layout.code.stop := hn.symm
    rw [here, Layout.bytesFrom_stop, Layout.listingFrom_stop]
    cases fuel <;> rfl
  | succ n ih =>
    have inside : k < code.instructions.size := show k < code.stop by omega
    have hi := Array.getElem?_eq_getElem inside
    have read := read_instructionBytes room hi (wellFormed _ (Array.getElem_mem inside))
      (code.layout.bytesFrom (k + 1))
    have size := length_instructionBytes_layout code hi
    have positive := code.layout.instructionSize_pos k code.instructions[k]
    have bytes := Layout.bytesFrom_of_getElem? code.layout hi
    rw [bytes, List.length_append] at enough
    obtain ⟨fuel, rfl⟩ : ∃ m, fuel = m + 1 := ⟨fuel - 1, by omega⟩
    rw [Layout.listingFrom_of_getElem? code.layout hi, bytes,
      Reading.sweep_append (by omega) read, size, ← layout_offset_succ code hi,
      ih (by omega) (by omega) (by omega)]
    rfl

theorem disassemble_layout (room : code.layout.size < 0x100000000)
    (wellFormed : ∀ i ∈ code.instructions, i.WellFormed) :
    Reading.disassemble code.layout.bytes = some (code.layout.listingFrom 0) := by
  have whole := sweep_layout room wellFormed (Nat.zero_le _) (Nat.le_refl _)
  rwa [layout_offset_zero, Layout.bytesFrom_zero] at whole

end Code
end Cil
