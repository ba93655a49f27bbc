import Cil.Proofs.Occurrences
import Cil.Proofs.StackMachine

/-!
Running the code of a body. In code that has settled the machine goes from one place to the next, or to
the place of a label. What is said of an action of the compiler is what the machine does between the
places at which the action starts and stops writing, once the code is complete; so a sequence of actions
does what its parts do.
-/

namespace Cil

open Machine

variable {form : BranchForm} {target : Label} {b : Branch} {operand : Bytes} {p : Nat}

theorem Machine.choose_short (b : Branch) (stack : List Value) :
    choose b.short stack = choose b.long stack := by
  cases b with
  | compare op unsigned => cases op <;> cases unsigned <;> rfl
  | always | leave | ifTrue | ifFalse => rfl

namespace Code

/-- What stands at a place of the code is read so, and ends where the next place is. -/
def ReadsAt (code : Code) (k : Nat) (reading : Reading) : Prop :=
  ∃ rest, Reading.read (code.layout.bytes.drop (code.layout.offset k)) = some (reading, rest) ∧
    code.layout.bytes.length - rest.length = code.layout.offset (k + 1)

theorem readsAt_layout {code : Code} (room : code.layout.size < 0x100000000) {k : Nat} {i : Instruction}
    (hi : code.instructions[k]? = some i) (wellFormed : i.WellFormed) :
    code.ReadsAt k (code.layout.reading k i) := by
  have inside : k < code.stop := (Array.getElem?_eq_some_iff.1 hi).1
  have rest := length_bytesFrom_layout code (show k + 1 ≤ code.stop from inside)
  refine ⟨code.layout.bytesFrom (k + 1), ?_, ?_⟩
  · rw [drop_bytes_layout code (Nat.le_of_lt inside), Layout.bytesFrom_of_getElem? _ hi,
      read_instructionBytes room hi wellFormed]
  · rw [length_bytes_layout]
    omega

/-- The code of a draft that is complete, and what it has settled as. -/
structure Runnable (code wider : Code) : Prop where
  settled : code.Settled wider
  room : wider.layout.size < 0x100000000
  wellFormed {i : Instruction} : i ∈ code.instructions → i.WellFormed
  ranked : code.Ranked

namespace Runnable

variable {code wider : Code} (h : code.Runnable wider) {k : Nat}

include h

theorem readsAt {j : Instruction} (hj : code.instructions[k]? = some j) :
    ∃ i, wider.instructions[k]? = some i ∧ j.WidensTo i ∧
      wider.ReadsAt k (wider.layout.reading k i) := by
  obtain ⟨i, hi, widens⟩ := h.settled.exists_instruction hj
  have wellFormed : i.WellFormed := by
    cases widens with
    | same => exact h.wellFormed (Array.mem_of_getElem? hj)
    | long => trivial
  exact ⟨i, hi, widens, readsAt_layout h.room hi wellFormed⟩

theorem readsAt_simple {op : Opcode} (hi : code.instructions[k]? = some (.simple op operand)) :
    wider.ReadsAt k (.plain op operand) := by
  obtain ⟨i, _, widens, reads⟩ := h.readsAt hi
  cases widens
  exact reads

theorem readsAt_branch (hi : code.instructions[k]? = some (.branch b target form))
    (there : code.position? target = some p) :
    ∃ op distance, (op = b.short ∨ op = b.long) ∧ wider.ReadsAt k (.branch op distance) ∧
      Reading.reach (wider.layout.offset (k + 1)) distance = wider.layout.offset p := by
  obtain ⟨i, hw, widens, stands⟩ := h.readsAt hi
  obtain ⟨reads, targets⟩ := h.settled.targets_reading h.room hw widens
    (by simp [Instruction.targets, there])
  generalize wider.layout.reading k i = reading at reads targets stands
  cases reading with
  | plain | switch => cases reads
  | branch op distance =>
    refine ⟨op, distance, reads, stands, ?_⟩
    rw [Instruction.targets, Reading.targets, List.forall₂_cons] at targets
    obtain ⟨p', there', place⟩ := targets.1
    rw [← place, Option.some.inj (there.symm.trans there')]

theorem position?_of_place {l : Label} {σ σ' : Compile.State} (placed : (Compile.place l).Runs σ () σ')
    (final : σ'.draft.code.Extends code) : code.position? l = some σ'.draft.code.stop := by
  obtain rfl := Compile.runs_modify.1 placed
  refine final.position? h.ranked ?_
  simp [Draft.place, Code.place, Code.position?, Code.stop]

end Runnable
end Code

theorem Machine.step?_of_readsAt {code : Code} {k : Nat} {reading : Reading}
    (h : code.ReadsAt k reading)
    (beyond : Shift.Beyond) (stack : List Value) (slots : Slots) :
    step? beyond code.layout.bytes ⟨code.layout.offset k, stack, slots⟩ =
      perform beyond (code.layout.offset (k + 1)) stack slots reading := by
  obtain ⟨rest, read, next⟩ := h
  rw [step?, read, ← next]
  rfl

/-- A run of complete code, in which shifts go as they do and the slots hold what they hold. -/
structure Execution where
  beyond : Shift.Beyond
  slots : Slots
  code : Code
  wider : Code
  runnable : code.Runnable wider

namespace Execution

open Code Compile

variable (x : Execution) {k : Nat} {stack stack₁ stack' : List Value}

def stateAt (k : Nat) (stack : List Value) : Machine.State := ⟨x.wider.layout.offset k, stack, x.slots⟩

def step? (k : Nat) (stack : List Value) : Option Machine.State :=
  Machine.step? x.beyond x.wider.layout.bytes (x.stateAt k stack)

theorem step?_simple {op : Opcode} (hi : x.code.instructions[k]? = some (.simple op operand))
    (done : execute x.beyond op operand stack x.slots = some (stack', x.slots)) :
    x.step? k stack = some (x.stateAt (k + 1) stack') := by
  rw [step?, stateAt, step?_of_readsAt (x.runnable.readsAt_simple hi), perform, done]
  rfl

theorem step?_branch (hi : x.code.instructions[k]? = some (.branch b target form))
    (there : x.code.position? target = some p) {taken : Bool}
    (chosen : choose b.long stack = some (taken, stack')) :
    x.step? k stack = some (x.stateAt (if taken then p else k + 1) stack') := by
  obtain ⟨op, distance, forms, reads, place⟩ := x.runnable.readsAt_branch hi there
  have opcode : choose op stack = some (taken, stack') := by
    rcases forms with rfl | rfl
    · rw [choose_short, chosen]
    · exact chosen
  rw [step?, stateAt, step?_of_readsAt reads, perform, opcode, place]
  cases taken <;> rfl

/-- The machine comes from one place of the code to another. -/
def Passes (k : Nat) (stack : List Value) (k' : Nat) (stack' : List Value) : Prop :=
  Machine.Reaches x.beyond x.wider.layout.bytes (x.stateAt k stack) (x.stateAt k' stack')

theorem Passes.trans {k₁ k₂ k₃ : Nat} {stack₂ stack₃ : List Value} {x : Execution}
    (h : x.Passes k₁ stack k₂ stack₂) (h' : x.Passes k₂ stack₂ k₃ stack₃) :
    x.Passes k₁ stack k₃ stack₃ :=
  Relation.ReflTransGen.trans h h'

/-- What is written by an action takes the machine from one stack to another. It ends behind what was
written, or it jumps to a place. -/
def Leads {α : Type} (c : Compile α) (stack : List Value) (jump : Option Nat) (stack' : List Value) :
    Prop :=
  ∀ (σ σ' : Compile.State) (a : α), c.Runs σ a σ' → σ.draft.code.Extends σ'.draft.code ∧
    (σ'.draft.code.Extends x.code →
      x.Passes σ.draft.code.stop stack (jump.getD σ'.draft.code.stop) stack')

variable {x} {α β : Type}

theorem Leads.bind {c : Compile α} {f : α → Compile β} {jump : Option Nat}
    (hc : x.Leads c stack none stack₁) (hf : ∀ a, x.Leads (f a) stack₁ jump stack') :
    x.Leads (c >>= f) stack jump stack' := by
  intro σ σ' b run
  obtain ⟨a, σ₁, first, second⟩ := runs_bind.1 run
  obtain ⟨written₁, passes₁⟩ := hc _ _ _ first
  obtain ⟨written₂, passes₂⟩ := hf a _ _ _ second
  exact ⟨written₁.trans written₂, fun final => (passes₁ (written₂.trans final)).trans (passes₂ final)⟩

theorem leads_of_same {c : Compile α}
    (same : ∀ {σ σ' : Compile.State} {a : α}, c.Runs σ a σ' → σ'.draft.code = σ.draft.code) :
    x.Leads c stack none stack := by
  intro σ σ' a run
  rw [same run]
  exact ⟨.refl _, fun _ => .refl⟩

theorem leads_pure (a : α) : x.Leads (pure a) stack none stack :=
  leads_of_same fun run => by rw [(runs_pure.1 run).2]

theorem leads_modify {f : Draft → Draft} (same : ∀ d, (f d).code = d.code) :
    x.Leads (modify f) stack none stack :=
  leads_of_same fun run => by
    obtain rfl := runs_modify.1 run
    exact same _

theorem leads_raise (count : Nat) : x.Leads (raise count) stack none stack :=
  leads_modify fun _ => rfl

theorem leads_lower (count : Nat) : x.Leads (lower count) stack none stack :=
  leads_modify fun _ => rfl

theorem leads_setHeight (x : Execution) (height : Nat) (stack : List Value) :
    x.Leads (setHeight height) stack none stack :=
  leads_modify fun _ => rfl

theorem leads_newLabel (x : Execution) (stack : List Value) : x.Leads newLabel stack none stack :=
  leads_of_same fun run => by rw [← (runs_modifyGet.1 run).2]

theorem leads_height (x : Execution) (stack : List Value) : x.Leads height stack none stack :=
  leads_of_same fun run => by
    simp only [height, runs_bind, runs_get, runs_pure] at run
    obtain ⟨_, _, ⟨_, rfl⟩, _, rfl⟩ := run
    rfl

theorem leads_place (x : Execution) (l : Label) (stack : List Value) :
    x.Leads (place l) stack none stack := by
  intro σ σ' a run
  obtain rfl := runs_modify.1 run
  exact ⟨.place .., fun _ => .refl⟩

theorem leads_opWith {o : Opcode}
    (done : execute x.beyond o operand stack x.slots = some (stack', x.slots)) :
    x.Leads (opWith o operand) stack none stack' := by
  intro σ σ' a run
  obtain rfl := runs_modify.1 run
  refine ⟨.push .., fun final => .single ?_⟩
  have stop : (σ.draft.push (.simple o operand)).code.stop = σ.draft.code.stop + 1 := Array.size_push ..
  rw [Option.getD_none, stop]
  exact x.step?_simple (final.getElem? Array.getElem?_push_size) done

theorem leads_branch (there : x.code.position? target = some p) {taken : Bool}
    (chosen : choose b.long stack = some (taken, stack')) :
    x.Leads (branch b target form) stack (if taken then some p else none) stack' := by
  intro σ σ' a run
  obtain rfl := runs_modify.1 run
  refine ⟨.push .., fun final => .single ?_⟩
  have stop : (σ.draft.push (.branch b target form)).code.stop = σ.draft.code.stop + 1 :=
    Array.size_push ..
  have step := x.step?_branch (final.getElem? Array.getElem?_push_size) there chosen
  rw [stop]
  cases taken <;> exact step

theorem leads_always (there : x.code.position? target = some p) (stack : List Value) :
    x.Leads (branch .always target form) stack (some p) stack := by
  have taken : choose Branch.always.long stack = some (true, stack) := rfl
  exact leads_branch there taken

end Execution
end Cil
