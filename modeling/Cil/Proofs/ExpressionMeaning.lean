import Cil.Proofs.Execution
import Mathlib.Tactic.IntervalCases

/-!
The code of an expression computes its value. The instructions that are chosen for constants, slots,
operations and comparisons do what the expression means; from this, by induction over the expressions
about 32-bit integers, the code of each of them puts its value on the stack and changes nothing else.
-/

namespace Cil

open Machine

namespace Compile

section Selection

variable (beyond : Shift.Beyond) (stack : List Value) (slots : Slots)

theorem toInt_wide (v : Int32) : Bytes.toInt (.le 4 v.toUInt32.toNat) = v.toInt := by
  have small : v.toUInt32.toNat < 0x100000000 := v.toUInt32.toNat_lt
  have size : Nat.pow 256 4 = 0x100000000 := rfl
  rw [Bytes.toInt, Bytes.ofLe_le, Bytes.length_le, size, Nat.mod_eq_of_lt small]
  exact (BitVec.toInt_eq_toNat_cond v.toBitVec).symm

theorem toInt_narrow {v : Int32} (low : -128 ≤ v.toInt) (high : v.toInt ≤ 127) :
    Bytes.toInt [v.toUInt32.toUInt8] = v.toInt := by
  have signed : v.toInt = if 2 * v.toUInt32.toNat < 0x100000000 then (v.toUInt32.toNat : Int)
      else v.toUInt32.toNat - 0x100000000 := BitVec.toInt_eq_toNat_cond v.toBitVec
  have small : v.toUInt32.toNat < 0x100000000 := v.toUInt32.toNat_lt
  have byte : Bytes.ofLe [v.toUInt32.toUInt8] = v.toUInt32.toNat % 256 := by
    simp [Bytes.ofLe]
  have size : Nat.pow 256 1 = 256 := rfl
  rw [Bytes.toInt, byte, List.length_singleton, size]
  split at signed <;> split <;> omega

theorem execute_constant {n : Nat} (hn : n ≤ 8) :
    execute beyond (Opcode.ldc_i4_0.plus n) [] stack slots =
      some (.int32 (.ofInt 32 n) :: stack, slots) := by
  interval_cases n <;> rfl

theorem execute_int32Op (v : Int32) : ∃ o operand, int32Op v = .simple o operand ∧
    execute beyond o operand stack slots = some (.int32 v.toBitVec :: stack, slots) := by
  have value : BitVec.ofInt 32 v.toInt = v.toBitVec := BitVec.ofInt_toInt
  rw [int32Op]
  split
  case isTrue minus =>
    subst minus
    exact ⟨_, _, rfl, rfl⟩
  case isFalse =>
    split
    case isTrue small =>
      have low : 0 ≤ v.toInt := Int32.le_iff_toInt_le.1 small.1
      have high : v.toInt ≤ 8 := Int32.le_iff_toInt_le.1 small.2
      have number : (v.toNatClampNeg : Int) = v.toInt := Int.toNat_of_nonneg low
      refine ⟨_, _, rfl, ?_⟩
      rw [execute_constant beyond stack slots (by omega), number, value]
    case isFalse =>
      split
      case isTrue short =>
        refine ⟨_, _, rfl, ?_⟩
        rw [← value,
          ← toInt_narrow (Int32.le_iff_toInt_le.1 short.1) (Int32.le_iff_toInt_le.1 short.2)]
        rfl
      case isFalse =>
        refine ⟨_, _, rfl, ?_⟩
        rw [← value, ← toInt_wide]
        rfl

theorem execute_binaryOp {op : BinaryOp} {unsigned : Bool} {a b c : BitVec 32}
    (value : op.result? beyond unsigned a b = some c) :
    execute beyond (binaryOp op unsigned false) [] (.int32 b :: .int32 a :: stack) slots =
      some (.int32 c :: stack, slots) := by
  cases op with
  | divide | remainder => cases value
  | shiftRight => cases unsigned <;> (cases value; rfl)
  | add | subtract | multiply | and | or | xor | shiftLeft =>
    cases value
    rfl

theorem execute_unaryOp (op : UnaryOp) (a : BitVec 32) :
    execute beyond (unaryOp op) [] (.int32 a :: stack) slots =
      some (.int32 (op.apply a) :: stack, slots) := by
  cases op <;> rfl

theorem execute_compareOp (op : Comparison) (unsigned : Bool) (a b : BitVec 32) :
    execute beyond (compareOp op unsigned).1 [] (.int32 b :: .int32 a :: stack) slots =
      some (.ofBool (op.holds unsigned a b ^^ (compareOp op unsigned).2) :: stack, slots) := by
  cases op <;> cases unsigned <;>
    refine congrArg (fun t => some (.ofBool t :: stack, slots)) (Bool.eq_iff_iff.2 ?_) <;>
    simp [compareOp, Comparison.holds, Comparison.decides, BitVec.slt, BitVec.ult, BitVec.toInt_inj,
      BitVec.toNat_inj]

theorem choose_compare (op : Comparison) (unsigned : Bool) (a b : BitVec 32) :
    choose (Branch.compare op unsigned).long (.int32 b :: .int32 a :: stack) =
      some (op.holds unsigned a b, stack) := by
  cases op <;> cases unsigned <;>
    refine congrArg (fun t => some (t, stack)) (Bool.eq_iff_iff.2 ?_) <;>
    simp [Comparison.holds, Comparison.decides, BitVec.slt, BitVec.sle, BitVec.ult, BitVec.ule,
      BitVec.toInt_inj, BitVec.toNat_inj]

theorem decides_negate (op : Comparison) (m n : Int) :
    (negate op).decides m n = !op.decides m n := by
  rw [Bool.eq_iff_iff]
  cases op <;> simp [negate, Comparison.decides]

theorem holds_negate (op : Comparison) (unsigned : Bool) (a b : BitVec 32) :
    (negate op).holds unsigned a b = !op.holds unsigned a b := by
  cases unsigned <;> exact decides_negate ..

end Selection

end Compile

namespace Execution

open Compile

variable {x : Execution} {stack : List Value}

theorem leads_loadInt32 (v : Int32) :
    x.Leads (loadInt32 v) stack none (.int32 v.toBitVec :: stack) := by
  obtain ⟨o, operand, chosen, done⟩ := execute_int32Op x.beyond stack x.slots v
  refine Leads.bind ?_ fun _ => leads_raise 1
  rw [chosen]
  exact leads_opWith done

theorem leads_slotOp {slot : Nat} (room : slot ≤ 0xFFFF) {first short long : Opcode}
    {read : Nat → Value}
    (own : ∀ n ≤ 3, execute x.beyond (first.plus n) [] stack x.slots = some (read n :: stack, x.slots))
    (byte : ∀ operand, execute x.beyond short operand stack x.slots =
      some (read operand.ofLe :: stack, x.slots))
    (word : ∀ operand, execute x.beyond long operand stack x.slots =
      some (read operand.ofLe :: stack, x.slots)) :
    x.Leads (slotOp slot (some first) short long) stack none (read slot :: stack) := by
  unfold slotOp
  by_cases few : slot ≤ 3
  · simp only [few, decide_true]
    exact leads_opWith (own slot few)
  · simp only [few, decide_false]
    split
    case isTrue small =>
      have value : Bytes.ofLe [UInt8.ofNat slot] = slot := by
        simp [Bytes.ofLe]
        omega
      have done := byte [.ofNat slot]
      rw [value] at done
      exact leads_opWith done
    case isFalse =>
      have done := word (.le 2 slot)
      rw [Bytes.ofLe_le, Nat.mod_eq_of_lt (Nat.lt_succ_of_le room)] at done
      exact leads_opWith done

theorem leads_fault {α β : Type} (ctx : BodyContext) (cause : BodyFault) {f : α → Compile β}
    {jump : Option Nat} {stack' : List Value} : x.Leads (fault ctx cause >>= f) stack jump stack' := by
  intro σ σ' b run
  obtain ⟨_, _, refused, _⟩ := runs_bind.1 run
  exact absurd refused runs_fault

theorem leads_loadLocal (ctx : BodyContext) (index : Nat) :
    x.Leads (loadLocal ctx index) stack none (x.slots.locals index :: stack) := by
  unfold loadLocal localSlot
  split
  case isTrue inRange =>
    rw [pure_bind]
    simp only [Bool.and_eq_true, decide_eq_true_eq] at inRange
    refine (leads_slotOp inRange.2 ?_ (fun _ => rfl) fun _ => rfl).bind fun _ => leads_raise 1
    intro n hn
    interval_cases n <;> rfl
  case isFalse => exact leads_fault ctx _

theorem leads_loadParameter (ctx : BodyContext) (index : Nat) :
    x.Leads (loadParameter ctx index) stack none
      (x.slots.arguments (index + ctx.method.signature.isInstance.toNat) :: stack) := by
  unfold loadParameter parameterSlot
  extract_lets signature slot
  split
  case isTrue => exact leads_fault ctx _
  case isFalse inRange =>
    rw [pure_bind]
    simp only [Bool.or_eq_true, decide_eq_true_eq, not_or, Nat.not_lt] at inRange
    refine (leads_slotOp inRange.2 ?_ (fun _ => rfl) fun _ => rfl).bind fun _ => leads_raise 1
    intro n hn
    interval_cases n <;> rfl

theorem leads_compareValues (op : Comparison) (unsigned : Bool) (a b : BitVec 32) :
    x.Leads (compareValues op unsigned) (.int32 b :: .int32 a :: stack) none
      (.ofBool (op.holds unsigned a b) :: stack) := by
  have compared := execute_compareOp x.beyond stack x.slots op unsigned a b
  unfold compareValues
  generalize compareOp op unsigned = chosen at compared
  obtain ⟨o, inverted⟩ := chosen
  refine (leads_opWith compared).bind fun _ => (leads_lower 2).bind fun _ =>
    (leads_raise 1).bind fun _ => ?_
  cases inverted with
  | false =>
    rw [Bool.xor_false]
    exact leads_pure ()
  | true =>
    refine (leads_loadInt32 0).bind fun _ => Leads.bind (leads_opWith ?_) fun _ => leads_lower 1
    cases op.holds unsigned a b <;> rfl

/-- An expression has a value of a kind, and its code puts that on the stack. -/
def Means (x : Execution) (ctx : BodyContext) (e : Expression) (k : Value.Kind) : Prop :=
  ∃ v, e.value? x.beyond (x.slots.environment ctx.method.signature.isInstance) = some v ∧ v.kind = k ∧
    ∀ stack, x.Leads (expression ctx e) stack none (v :: stack)

variable {ctx : BodyContext} {e left right : Expression} {test : Condition} {k : Value.Kind}

theorem Means.int32 (h : x.Means ctx e .int32) : ∃ n,
    e.value? x.beyond (x.slots.environment ctx.method.signature.isInstance) = some (.int32 n) ∧
      ∀ stack, x.Leads (expression ctx e) stack none (.int32 n :: stack) := by
  obtain ⟨v, value, kind, leads⟩ := h
  obtain ⟨n, rfl⟩ := Value.eq_int32_of_kind kind
  exact ⟨n, value, leads⟩

theorem means_binary {op : BinaryOp} (total : op.isTotal = true) (unsigned : Bool)
    (hl : x.Means ctx left .int32) (hr : x.Means ctx right .int32) :
    x.Means ctx (.binary op left right unsigned false) .int32 := by
  obtain ⟨a, valueₗ, leadsₗ⟩ := hl.int32
  obtain ⟨b, valueᵣ, leadsᵣ⟩ := hr.int32
  obtain ⟨c, result⟩ : ∃ c, op.result? x.beyond unsigned a b = some c := by
    cases op with
    | divide | remainder => cases total
    | add | subtract | multiply | and | or | xor | shiftLeft | shiftRight => exact ⟨_, rfl⟩
  refine ⟨.int32 c, ?_, rfl, fun stack => ?_⟩
  · simp [Expression.value?, valueₗ, valueᵣ, Value.int32?, result]
  · rw [expression]
    exact (leadsₗ _).bind fun _ => (leadsᵣ _).bind fun _ =>
      Leads.bind (leads_opWith (execute_binaryOp _ _ _ result)) fun _ => leads_lower 1

theorem means_unary (op : UnaryOp) {operand : Expression} (h : x.Means ctx operand .int32) :
    x.Means ctx (.unary op operand) .int32 := by
  obtain ⟨a, value, leads⟩ := h.int32
  refine ⟨.int32 (op.apply a), ?_, rfl, fun stack => ?_⟩
  · simp [Expression.value?, value, Value.int32?]
  · rw [expression]
    exact (leads _).bind fun _ => leads_opWith (execute_unaryOp ..)

theorem means_compare (op : Comparison) (unsigned : Bool) (hl : x.Means ctx left .int32)
    (hr : x.Means ctx right .int32) : x.Means ctx (.compare op left right unsigned) .int32 := by
  obtain ⟨a, valueₗ, leadsₗ⟩ := hl.int32
  obtain ⟨b, valueᵣ, leadsᵣ⟩ := hr.int32
  refine ⟨.ofBool (op.holds unsigned a b), ?_, rfl, fun stack => ?_⟩
  · simp [Expression.value?, valueₗ, valueᵣ, Value.int32?]
  · rw [expression]
    exact (leadsₗ _).bind fun _ => (leadsᵣ _).bind fun _ => leads_compareValues op unsigned a b

/-- The code of a condition goes to the target if the condition is as it should be, and else falls
through. -/
theorem leads_condition (operands : ∀ e ∈ test.operands, x.Means ctx e .int32) :
    ∃ b, test.holds? x.beyond (x.slots.environment ctx.method.signature.isInstance) = some b ∧
      ∀ {target : Label} {p : Nat}, x.code.position? target = some p → ∀ form holds stack,
        x.Leads (condition ctx target form holds test) stack (if b == holds then some p else none)
          stack := by
  cases test with
  | isTrue e =>
    obtain ⟨a, value, leads⟩ := (operands e (by simp [Condition.operands])).int32
    refine ⟨(Value.int32 a).isTrue, ?_, fun there form holds stack => ?_⟩
    · simp [Condition.holds?, value]
    · rw [condition]
      refine (leads _).bind fun _ => (leads_lower 1).bind fun _ => leads_branch there ?_
      cases holds <;> rfl
  | isFalse e =>
    obtain ⟨a, value, leads⟩ := (operands e (by simp [Condition.operands])).int32
    refine ⟨!(Value.int32 a).isTrue, ?_, fun there form holds stack => ?_⟩
    · simp [Condition.holds?, value]
    · rw [condition]
      refine (leads _).bind fun _ => (leads_lower 1).bind fun _ => leads_branch there ?_
      have opposite (t : Bool) : ((!t) == holds) = (t == !holds) := by cases t <;> cases holds <;> rfl
      rw [opposite]
      cases holds <;> rfl
  | compare op left right unsigned =>
    obtain ⟨a, valueₗ, leadsₗ⟩ := (operands left (by simp [Condition.operands])).int32
    obtain ⟨b, valueᵣ, leadsᵣ⟩ := (operands right (by simp [Condition.operands])).int32
    refine ⟨op.holds unsigned a b, ?_, fun there form holds stack => ?_⟩
    · simp [Condition.holds?, valueₗ, valueᵣ, Value.int32?]
    · rw [condition]
      refine (leadsₗ _).bind fun _ => (leadsᵣ _).bind fun _ => (leads_lower 2).bind fun _ =>
        leads_branch there ?_
      rw [choose_compare]
      cases holds with
      | true => simp
      | false => simp [holds_negate]

theorem means_conditional {ifTrue ifFalse : Expression}
    (operands : ∀ e ∈ test.operands, x.Means ctx e .int32) (ht : x.Means ctx ifTrue k)
    (hf : x.Means ctx ifFalse k) : x.Means ctx (.conditional test ifTrue ifFalse) k := by
  obtain ⟨b, holds, tests⟩ := leads_condition operands
  obtain ⟨v₁, value₁, kind₁, leads₁⟩ := ht
  obtain ⟨v₂, value₂, kind₂, leads₂⟩ := hf
  refine ⟨if b then v₁ else v₂, ?_, ?_, fun stack σ σ' _ run => ?_⟩
  · cases b <;> simp [Expression.value?, holds, value₁, value₂]
  · cases b <;> assumption
  refine ⟨(composed_parts ctx _).extendsCode run, fun final => ?_⟩
  simp only [expression, runs_bind] at run
  obtain ⟨otherwise, σ₁, new₁, behind, σ₂, new₂, _, σ₃, tested, before, σ₄, measured, _, σ₅, first,
    _, σ₆, jumped, _, σ₇, restored, _, σ₈, placed, _, σ₉, second, joined⟩ := run
  obtain ⟨_, pass₁⟩ := x.leads_newLabel stack _ _ _ new₁
  obtain ⟨more₂, pass₂⟩ := x.leads_newLabel stack _ _ _ new₂
  obtain ⟨more₄, pass₄⟩ := x.leads_height stack _ _ _ measured
  obtain ⟨more₅, pass₅⟩ := leads₁ stack _ _ _ first
  obtain ⟨more₆, pass₆⟩ := leads_always (x.runnable.position?_of_place joined final)
    (v₁ :: stack) _ _ _ jumped
  obtain ⟨more₇, _⟩ := x.leads_setHeight before stack _ _ _ restored
  obtain ⟨more₈, _⟩ := x.leads_place otherwise stack _ _ _ placed
  obtain ⟨more₉, pass₉⟩ := leads₂ stack _ _ _ second
  obtain ⟨more, pass⟩ := x.leads_place behind (v₂ :: stack) _ _ _ joined
  -- What is written later leaves both labels where they were placed, so the test and the jump find them.
  have final₉ := more.trans final
  have final₈ := more₉.trans final₉
  have final₆ := more₇.trans (more₈.trans final₈)
  have final₅ := more₆.trans final₆
  have final₄ := more₅.trans final₅
  have final₃ := more₄.trans final₄
  obtain ⟨more₃, pass₃⟩ := tests (x.runnable.position?_of_place placed final₈) _ _ stack _ _ _ tested
  have final₂ := more₃.trans final₃
  have tested := ((pass₁ (more₂.trans final₂)).trans (pass₂ final₂)).trans (pass₃ final₃)
  cases b with
  | true => exact ((tested.trans (pass₄ final₄)).trans (pass₅ final₅)).trans (pass₆ final₆)
  | false => exact (tested.trans (pass₉ final₉)).trans (pass final)

theorem means_of_hasKind (x : Execution) (ctx : BodyContext)
    (h : e.HasKind ((x.slots.environment ctx.method.signature.isInstance).map Value.kind) k) :
    x.Means ctx e k := by
  induction h with
  | int32 v => exact ⟨_, rfl, rfl, fun stack => by rw [expression]; exact leads_loadInt32 v⟩
  | boolean v =>
    refine ⟨_, rfl, rfl, fun stack => ?_⟩
    rw [expression]
    cases v <;> exact leads_loadInt32 _
  | char v => exact ⟨_, rfl, rfl, fun stack => by rw [expression]; exact leads_loadInt32 _⟩
  | ofLocal index => exact ⟨_, rfl, rfl,
    fun stack => by rw [expression]; exact leads_loadLocal ctx index⟩
  | parameter index =>
    exact ⟨_, rfl, rfl, fun stack => by rw [expression]; exact leads_loadParameter ctx index⟩
  | this =>
    refine ⟨_, rfl, rfl, fun stack => ?_⟩
    rw [expression]
    split
    · exact leads_fault ctx _
    · exact Leads.bind (leads_opWith rfl) fun _ => leads_raise 1
  | binary total unsigned _ _ ihl ihr => exact means_binary total unsigned ihl ihr
  | unary op _ ih => exact means_unary op ih
  | compare op unsigned _ _ ihl ihr => exact means_compare op unsigned ihl ihr
  | conditional _ _ _ iho iht ihf => exact means_conditional iho iht ihf

end Execution

namespace Compile

open Code

theorem Compiles.runnable {b : Body} {s s' : Session} {d : Draft} {ctx : BodyContext} {wider : Code}
    (h : Compiles ctx b s d wider s') (room : wider.layout.size < 0x100000000) :
    d.code.Runnable wider := by
  obtain ⟨K, items, final⟩ := h.scoped
  have code : d.code = written items := final.code
  refine ⟨h.settled, room, fun {i} hi => final.wellFormed ?_, code ▸ ranked_written final.once⟩
  rwa [← toList_instructions_written, ← code, Array.mem_toList_iff]

/-- Every value that a body compiles has a stretch of the final code. Where the value is about 32-bit
integers, the machine comes from the start of the stretch to its end with the value on the stack, whatever
lies below it and whatever the slots hold. -/
theorem code_computes_values {src : Source} {keepsSymbols : Bool} {row : Nat} {m : Method} {b : Body}
    {s s' : Session} {encoded : MethodBody} {symbols : Option MethodSymbols} {bytes : Bytes}
    (run : (encodeBody src keepsSymbols row m b).Runs s (encoded, symbols) s')
    (encodes : encoded.encode = .ok bytes) :
    ∃ d l s₁, (layOut (.ofBody src keepsSymbols m b) b).Runs s (d, l) s₁ ∧ l.bytes = encoded.code ∧
      (∃ sites, List.Forall₂ (Site (.ofBody src keepsSymbols m b) d.code) b.values sites) ∧
      ∀ e site, Site (.ofBody src keepsSymbols m b) d.code e site →
        ∀ (beyond : Shift.Beyond) (slots : Slots) (k : Value.Kind),
          e.HasKind ((slots.environment m.signature.isInstance).map Value.kind) k →
            ∃ v, e.value? beyond (slots.environment m.signature.isInstance) = some v ∧ v.kind = k ∧
              ∀ stack, Machine.Reaches beyond encoded.code
                ⟨l.offset site.1.draft.code.stop, stack, slots⟩
                ⟨l.offset site.2.draft.code.stop, v :: stack, slots⟩ := by
  have room := encoded.length_code_lt encodes
  obtain ⟨token, d, l, s₁, locals, laidOut, _, _, rfl⟩ := layOut_of_encodeBody run
  obtain ⟨wider, rfl, compiles⟩ := compiles_of_layOut laidOut
  have runnable := compiles.runnable (by rwa [← length_bytes_layout])
  refine ⟨d, wider.layout, s₁, laidOut, rfl, ?_, fun e site there beyond slots k kind => ?_⟩
  · exact ((composed_body _ b).allSites compiles.run (.refl d.code)).1
  · let execution : Execution := ⟨beyond, slots, d.code, wider, runnable⟩
    obtain ⟨v, value, kind, leads⟩ := execution.means_of_hasKind (.ofBody src keepsSymbols m b) kind
    exact ⟨v, value, kind, fun stack => (leads stack _ _ _ there.run).2 there.within⟩

section Choice

def choice : Expression :=
  .conditional (.compare .less (.parameter 0) (.literal (.int32 200)) false)
    (.unary .negate (.parameter 0)) (.parameter 0)

def chooser : Body where
  root := .mk ⟨0⟩ [.exit (some choice)] [] none

def choosing : Method where
  name := "Choose"
  signature := {
    isInstance := true
    returnType := .primitive .int32
    parameters := [.primitive .int32] }

def chosen : MethodBody where
  code := [0x03, 0x20, 200, 0, 0, 0, 0x2F, 4, 0x03, 0x65, 0x2B, 1, 0x03, 0x2A]
  maxStack := 2
  initLocals := chooser.initLocals
  clauses := []

theorem encodes_chooser : ∃ symbols s', (encodeBody courierSource false 1 choosing chooser).Runs
    (.ofModule courier) (chosen, symbols) s' := encodes_of_toOption (by decide +kernel)

def five : Slots where
  locals _ := .int32 0
  arguments slot := if slot = 0 then .object (some 0) else .int32 5

/-- Five is small. -/
theorem code_computes_values_choice :
    (∃ bytes, chosen.encode = .ok bytes) ∧ ∃ start stop, ∀ stack,
      Machine.Reaches (fun _ a _ => a) chosen.code ⟨start, stack, five⟩
        ⟨stop, .int32 (-5) :: stack, five⟩ := by
  obtain ⟨symbols, s', run⟩ := encodes_chooser
  have encodes : ∃ bytes, chosen.encode = .ok bytes := ⟨_, rfl⟩
  obtain ⟨d, l, _, _, _, ⟨sites, standing⟩, computes⟩ := code_computes_values run encodes.choose_spec
  have argument : (Expression.parameter 0).HasKind ((five.environment true).map Value.kind) .int32 :=
    .parameter 0
  have kind : choice.HasKind ((five.environment true).map Value.kind) .int32 := by
    refine .conditional (fun e he => ?_) (.unary .negate argument) argument
    rcases List.mem_pair.1 he with rfl | rfl
    · exact argument
    · exact .int32 200
  cases standing with
  | cons there _ =>
      obtain ⟨v, value, _, reaches⟩ := computes _ _ there (fun _ a _ => a) five .int32 kind
      cases value
      exact ⟨encodes, _, _, reaches⟩

end Choice

end Compile
end Cil
