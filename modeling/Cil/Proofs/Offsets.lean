import Cil.Code.Layout

/-!
Offsets in a layout. The scan that finds them is described once, by where the code starts and by the
step over one instruction; sizes, byte strings and the places of instructions follow from these.
-/

namespace Cil

open List
variable {i : Instruction} {k : Nat}

namespace Code

theorem size_offsetsFrom (code : Code) (here : Nat) (offsets : Array Nat) (is : List Instruction) :
    (offsetsFrom code here offsets is).size = offsets.size + is.length + 1 := by
  induction is generalizing here offsets with
  | nil => simp [offsetsFrom]
  | cons i is ih => simp [offsetsFrom, ih]; omega

theorem getElem?_offsetsFrom_of_lt (code : Code) (here : Nat) (offsets : Array Nat)
    (is : List Instruction) (h : k < offsets.size) :
    (offsetsFrom code here offsets is)[k]? = offsets[k]? := by
  induction is generalizing here offsets with
  | nil => rw [offsetsFrom, Array.getElem?_push_lt h, Array.getElem?_eq_getElem h]
  | cons i is ih =>
    rw [offsetsFrom, ih _ _ (by simp; omega), Array.getElem?_push_lt h,
      Array.getElem?_eq_getElem h]

theorem getElem?_offsetsFrom_size (code : Code) (here : Nat) (offsets : Array Nat)
    (is : List Instruction) : (offsetsFrom code here offsets is)[offsets.size]? = some here := by
  cases is with
  | nil => simp [offsetsFrom]
  | cons i is =>
    rw [offsetsFrom, getElem?_offsetsFrom_of_lt _ _ _ _ (by simp)]
    simp

namespace Layout

def earlier? (l : Layout) (position : Nat) (target : Label) : Option Nat :=
  (l.code.position? target).bind fun p => if p ≤ position then some (l.offset p) else none

def instructionSize (l : Layout) (position : Nat) : Instruction → Nat
  | .simple op operand => op.bytes.length + operand.length
  | .branch _ target form =>
    if isShort form (l.offset position) (l.earlier? position target) then 2 else 5
  | .switch targets => 5 + 4 * targets.length

end Layout

theorem getElem?_offsetsFrom_succ (code : Code) (here : Nat) (offsets : Array Nat)
    (is : List Instruction) (hi : is[k]? = some i) :
    ∃ (before : Array Nat) (start : Nat), before.size = offsets.size + k + 1 ∧
      (∀ j, j < before.size → (offsetsFrom code here offsets is)[j]? = before[j]?) ∧
      before[offsets.size + k]? = some start ∧
      (offsetsFrom code here offsets is)[offsets.size + k + 1]? =
        some (start + sizeAt code start before i) := by
  induction is generalizing here offsets k with
  | nil => simp at hi
  | cons first is ih =>
    cases k with
    | zero =>
      obtain rfl : first = i := by simpa using hi
      refine ⟨offsets.push here, here, by simp, ?_, by simp, ?_⟩
      · intro j hj
        exact getElem?_offsetsFrom_of_lt _ _ _ _ hj
      · have := getElem?_offsetsFrom_size code
          (here + sizeAt code here (offsets.push here) first) (offsets.push here) is
        rwa [Array.size_push] at this
    | succ k =>
      obtain ⟨before, start, size, same, last, next⟩ :=
        ih (here + sizeAt code here (offsets.push here) first) (offsets.push here) hi
      rw [Array.size_push] at size last next
      refine ⟨before, start, by omega, same, ?_, ?_⟩
      · rw [← last]; congr 1; omega
      · rw [offsetsFrom, ← next]; congr 1; omega

variable (code : Code)

@[simp] theorem layout_code : code.layout.code = code := rfl

@[simp] theorem layout_offset_zero : code.layout.offset 0 = 0 := by
  have start := getElem?_offsetsFrom_size code 0 #[] code.instructions.toList
  rw [Layout.offset, layout, Array.getD_eq_getD_getElem?]
  exact congrArg (Option.getD · 0) start

theorem layout_offset_succ (hi : code.instructions[k]? = some i) :
    code.layout.offset (k + 1) = code.layout.offset k + code.layout.instructionSize k i := by
  obtain ⟨before, start, size, same, last, next⟩ := getElem?_offsetsFrom_succ code 0 #[]
    code.instructions.toList (k := k) (i := i) (by simpa using hi)
  simp only [size_toArray, length_nil, Nat.zero_add] at size last next
  have offset (j : Nat) (hj : j ≤ k) : before[j]? = some (code.layout.offset j) := by
    have hb : j < before.size := by omega
    rw [Layout.offset, layout, Array.getD_eq_getD_getElem?, same j hb,
      Array.getElem?_eq_getElem hb]
    rfl
  have here : start = code.layout.offset k := by
    have := last.symm.trans (offset k (Nat.le_refl k))
    simpa using this
  have nextOffset : code.layout.offset (k + 1) = start + sizeAt code start before i := by
    rw [Layout.offset, layout, Array.getD_eq_getD_getElem?, next]
    rfl
  rw [nextOffset, here]
  congr 1
  cases i with
  | simple | switch => rfl
  | branch b target form =>
    have target_eq : (code.position? target).bind (before[·]?) =
        code.layout.earlier? k target := by
      rw [Layout.earlier?, layout_code]
      congr 1
      funext p
      by_cases hp : p ≤ k
      · rw [if_pos hp, offset p hp]
      · rw [if_neg hp, Array.getElem?_eq_none (by omega)]
    rw [sizeAt, target_eq, Layout.instructionSize]

theorem layout_offset_le (k : Nat) (h : k < code.stop) :
    code.layout.offset k ≤ code.layout.offset (k + 1) := by
  rw [layout_offset_succ code (Array.getElem?_eq_getElem h)]
  exact Nat.le_add_right ..

theorem layout_offset_mono {j : Nat} (hjk : j ≤ k) (hk : k ≤ code.stop) :
    code.layout.offset j ≤ code.layout.offset k := by
  induction k with
  | zero =>
    obtain rfl := Nat.le_zero.1 hjk
    exact Nat.le_refl _
  | succ k ih =>
    rcases Nat.lt_or_eq_of_le hjk with before | rfl
    · exact Nat.le_trans (ih (by omega) (by omega)) (layout_offset_le code k hk)
    · exact Nat.le_refl _

theorem hasShortBranch_layout {b : Branch} {target : Label} {form : BranchForm}
    (hi : code.instructions[k]? = some (.branch b target form)) :
    code.layout.hasShortBranch k =
      isShort form (code.layout.offset k) (code.layout.earlier? k target) := by
  rw [Layout.hasShortBranch, layout_offset_succ code hi, Layout.instructionSize]
  cases isShort form (code.layout.offset k) (code.layout.earlier? k target) <;> simp

end Code

theorem Branch.length_bytes_short (b : Branch) : b.short.bytes.length = 1 := by
  cases b with
  | compare op unsigned => cases op <;> cases unsigned <;> rfl
  | always | leave | ifTrue | ifFalse => rfl

theorem Branch.length_bytes_long (b : Branch) : b.long.bytes.length = 1 := by
  cases b with
  | compare op unsigned => cases op <;> cases unsigned <;> rfl
  | always | leave | ifTrue | ifFalse => rfl

theorem Opcode.length_bytes_pos (op : Opcode) : 0 < op.bytes.length := by
  rw [Opcode.bytes]
  split <;> exact Nat.succ_pos _

namespace Code

theorem Layout.instructionSize_pos (l : Layout) (k : Nat) (i : Instruction) :
    0 < l.instructionSize k i := by
  cases i with
  | simple op operand =>
    rw [Layout.instructionSize]
    exact Nat.add_pos_left op.length_bytes_pos _
  | branch => rw [Layout.instructionSize]; split <;> decide
  | switch => rw [Layout.instructionSize]; omega

theorem layout_offset_lt (code : Code) {j : Nat} (hjk : j < k) (hk : k ≤ code.stop) :
    code.layout.offset j < code.layout.offset k := by
  have inside : j < code.instructions.size := Nat.lt_of_lt_of_le hjk hk
  have next := layout_offset_succ code (Array.getElem?_eq_getElem inside)
  have size := code.layout.instructionSize_pos j code.instructions[j]
  have rest := layout_offset_mono code (show j + 1 ≤ k from hjk) hk
  omega

theorem layout_offset_lt_iff (code : Code) {j : Nat} (hj : j ≤ code.stop) (hk : k ≤ code.stop) :
    code.layout.offset j < code.layout.offset k ↔ j < k := by
  refine ⟨fun lt => Nat.lt_of_not_le fun le => ?_, fun lt => layout_offset_lt code lt hk⟩
  exact Nat.not_le_of_lt lt (layout_offset_mono code le hj)

@[simp] theorem Layout.length_signed (width : Nat) (n : Int) :
    (Layout.signed width n).length = width := Bytes.length_le ..

theorem length_instructionBytes_layout (code : Code) (hi : code.instructions[k]? = some i) :
    (code.layout.instructionBytes k i).length = code.layout.instructionSize k i := by
  cases i with
  | simple op operand => simp [Layout.instructionBytes, Layout.instructionSize]
  | branch b target form =>
    rw [Layout.instructionBytes, hasShortBranch_layout code hi, Layout.instructionSize]
    split
    · simp [Branch.length_bytes_short]
    · simp [Branch.length_bytes_long]
  | switch targets =>
    have entries : (targets.map fun _ => 4).sum = targets.length * 4 := by
      rw [map_const', sum_replicate_nat]
    have opcode : Opcode.switch.bytes.length = 1 := rfl
    simp only [Layout.instructionBytes, Layout.instructionSize, length_append,
      length_flatMap, Layout.length_signed, Bytes.length_le, entries, opcode]
    omega

theorem drop_instructions {code : Code} (hi : code.instructions[k]? = some i) :
    code.instructions.toList.drop k = i :: code.instructions.toList.drop (k + 1) := by
  obtain ⟨hk, rfl⟩ := Array.getElem?_eq_some_iff.1 hi
  rw [drop_eq_getElem_cons (by simpa using hk)]
  simp

namespace Layout

variable (l : Layout)

def bytesFrom (position : Nat) : Bytes :=
  ((l.code.instructions.toList.drop position).zipIdx position).flatMap fun (i, position) =>
    l.instructionBytes position i

theorem bytesFrom_zero : l.bytesFrom 0 = l.bytes := by
  simp [bytesFrom, bytes]

theorem bytesFrom_of_getElem? (hi : l.code.instructions[k]? = some i) :
    l.bytesFrom k = l.instructionBytes k i ++ l.bytesFrom (k + 1) := by
  simp [bytesFrom, drop_instructions hi]

theorem bytesFrom_stop : l.bytesFrom l.code.stop = [] := by
  rw [bytesFrom, stop, drop_eq_nil_of_le (by simp)]
  rfl

end Layout

variable (code : Code)

theorem length_bytesFrom_layout (hk : k ≤ code.stop) :
    code.layout.offset k + (code.layout.bytesFrom k).length = code.layout.size := by
  obtain ⟨n, hn⟩ : ∃ n, code.stop = k + n := ⟨code.stop - k, by omega⟩
  induction n generalizing k with
  | zero =>
    have here : k = code.layout.code.stop := hn.symm
    rw [here, Layout.bytesFrom_stop]
    rfl
  | succ n ih =>
    have inside : k < code.instructions.size := show k < code.stop by omega
    have hi := Array.getElem?_eq_getElem inside
    have rest := ih (k := k + 1) (by omega) (by omega)
    rw [Layout.bytesFrom_of_getElem? _ hi, length_append,
      length_instructionBytes_layout code hi]
    rw [layout_offset_succ code hi] at rest
    omega

theorem length_bytes_layout : code.layout.bytes.length = code.layout.size := by
  have := length_bytesFrom_layout code (Nat.zero_le _)
  rwa [layout_offset_zero, Nat.zero_add, Layout.bytesFrom_zero] at this

theorem drop_bytes_layout (hk : k ≤ code.stop) :
    code.layout.bytes.drop (code.layout.offset k) = code.layout.bytesFrom k := by
  induction k with
  | zero => rw [layout_offset_zero, drop_zero, Layout.bytesFrom_zero]
  | succ k ih =>
    have inside : k < code.instructions.size := hk
    have hi := Array.getElem?_eq_getElem inside
    rw [layout_offset_succ code hi, ← drop_drop, ih (by omega),
      Layout.bytesFrom_of_getElem? _ hi, ← length_instructionBytes_layout code hi,
      drop_left]

end Code
end Cil
