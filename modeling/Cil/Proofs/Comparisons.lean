import Cil.Proofs.ExpressionMeaning

/-!
What comparisons decide. The two values of a comparison may be unordered, as some of floating point are.
The instructions say for themselves what they make of that; they are chosen in three ways, for the value
of a comparison, for a branch on it and for a conditional value, and the three answer alike if the values
are ordered.
-/

namespace Cil

namespace Comparison

/-- Whether a comparison holds of two values that compare so. Where they are unordered, `unordered` is the
answer of those that ask for an order. -/
def admits (unordered : Bool) : Comparison → Option Ordering → Bool
  | equal, r => r == some .eq
  | notEqual, r => r != some .eq
  | less, some r => r.isLT
  | lessOrEqual, some r => r.isLE
  | greater, some r => r.isGT
  | greaterOrEqual, some r => r.isGE
  | less, none | lessOrEqual, none | greater, none | greaterOrEqual, none => unordered

def unorderedValue (unsigned : Bool) : Comparison → Bool
  | lessOrEqual | greaterOrEqual => !unsigned
  | equal | notEqual | less | greater => unsigned

end Comparison

structure Processor.State (V M : Type) where
  offset : Nat
  stack : List V
  memory : M

/-- A machine for all instructions. Of its values it is known how they compare, and which ones stand for
true and for false. -/
structure Processor (V M : Type) where
  /-- How two values compare, where integers are read with or without a sign. -/
  compare (unsigned : Bool) (v w : V) : Option Ordering
  compare_eq_iff (v w : V) : compare true v w = some .eq ↔ compare false v w = some .eq
  ofBool (b : Bool) : V
  compare_ofBool (b b' : Bool) : compare false (ofBool b) (ofBool b') = some .eq ↔ b = b'
  /-- What an instruction does that does not compare, and ends at `next`. -/
  other (reading : Reading) (next : Nat) (stack : List V) (memory : M) : Option (Processor.State V M)

namespace Processor

/-- What an instruction asks about two values. -/
structure Test where
  unsigned : Bool
  answer (r : Option Ordering) : Bool

def comparing : List (Opcode × Test) :=
  [(.ceq, false, fun r => r == some .eq),
    (.cgt, false, fun r => r == some .gt),
    (.cgt_un, true, fun r => r == some .gt || r == none),
    (.clt, false, fun r => r == some .lt),
    (.clt_un, true, fun r => r == some .lt || r == none)].map fun (op, unsigned, answer) =>
      (op, ⟨unsigned, answer⟩)

def branching : List (Opcode × Opcode × Test) :=
  [(.beq, .beq_s, false, fun r => r == some .eq),
    (.bne_un, .bne_un_s, true, fun r => r != some .eq),
    (.blt, .blt_s, false, fun r => r == some .lt),
    (.blt_un, .blt_un_s, true, fun r => r == some .lt || r == none),
    (.ble, .ble_s, false, fun r => r == some .lt || r == some .eq),
    (.ble_un, .ble_un_s, true, fun r => r != some .gt),
    (.bgt, .bgt_s, false, fun r => r == some .gt),
    (.bgt_un, .bgt_un_s, true, fun r => r == some .gt || r == none),
    (.bge, .bge_s, false, fun r => r == some .gt || r == some .eq),
    (.bge_un, .bge_un_s, true, fun r => r != some .lt)].map fun (long, short, unsigned, answer) =>
      (long, short, ⟨unsigned, answer⟩)

def branchTest? (op : Opcode) : Option Test :=
  (branching.find? fun (long, short, _) => op = long || op = short).map (·.2.2)

variable {V M : Type} (P : Processor V M)

/-- What a test says of the two values on the stack, and what lies below them. -/
def ask (test : Test) : List V → Option (Bool × List V)
  | w :: v :: stack => some (test.answer (P.compare test.unsigned v w), stack)
  | _ => none

def perform (next : Nat) (stack : List V) (memory : M) (reading : Reading) : Option (State V M) :=
  match reading with
  | .plain op _ =>
    match comparing.lookup op with
    | some test => do
      let (answer, stack) ← P.ask test stack
      return ⟨next, P.ofBool answer :: stack, memory⟩
    | none =>
      if op = .ldc_i4_0 then some ⟨next, P.ofBool false :: stack, memory⟩
      else P.other reading next stack memory
  | .branch op distance =>
    match branchTest? op with
    | some test => do
      let (taken, stack) ← P.ask test stack
      return ⟨if taken then Reading.reach next distance else next, stack, memory⟩
    | none => P.other reading next stack memory
  | .switch _ => P.other reading next stack memory

def step? (code : Bytes) (x : State V M) : Option (State V M) := do
  let (reading, rest) ← Reading.read (code.drop x.offset)
  P.perform (code.length - rest.length) x.stack x.memory reading

/-- The machine comes from one state to another. -/
def Reaches (code : Bytes) : State V M → State V M → Prop :=
  Relation.ReflTransGen fun x y => P.step? code x = some y

theorem compare_beq_eq (unsigned : Bool) (v w : V) :
    (P.compare unsigned v w == some .eq) = (P.compare false v w == some .eq) := by
  cases unsigned with
  | false => rfl
  | true => rw [Bool.eq_iff_iff, beq_iff_eq, beq_iff_eq, P.compare_eq_iff]

theorem ask_compareOp (op : Comparison) (unsigned : Bool) (v w : V) (stack : List V) :
    ∃ test, comparing.lookup (Compile.compareOp op unsigned).1 = some test ∧
      P.ask test (w :: v :: stack) =
        some (op.admits (op.unorderedValue unsigned) (P.compare unsigned v w) ^^
          (Compile.compareOp op unsigned).2, stack) := by
  have equal := P.compare_beq_eq unsigned v w
  cases op with
  | equal =>
    refine ⟨_, rfl, ?_⟩
    simp [ask, Compile.compareOp, Comparison.admits, equal]
  | notEqual =>
    refine ⟨_, rfl, ?_⟩
    simp [ask, Compile.compareOp, Comparison.admits, bne, equal]
  | less | lessOrEqual | greater | greaterOrEqual =>
    cases unsigned <;>
    · refine ⟨_, rfl, ?_⟩
      simp only [ask, Compile.compareOp]
      generalize P.compare _ v w = r
      rcases r with _ | (_ | _ | _) <;> rfl

theorem ask_branch (op : Comparison) (unsigned : Bool) (v w : V) (stack : List V) {o : Opcode}
    (form : o = (Branch.compare op unsigned).short ∨ o = (Branch.compare op unsigned).long) :
    ∃ test, branchTest? o = some test ∧
      P.ask test (w :: v :: stack) = some (op.admits unsigned (P.compare unsigned v w), stack) := by
  have equal := P.compare_beq_eq unsigned v w
  cases op with
  | equal =>
    rcases form with rfl | rfl <;>
    · refine ⟨_, rfl, ?_⟩
      simp [ask, Comparison.admits, equal]
  | notEqual =>
    have equal' := P.compare_beq_eq true v w
    rcases form with rfl | rfl <;>
    · refine ⟨_, rfl, ?_⟩
      simp [ask, Comparison.admits, bne, equal, equal']
  | less | lessOrEqual | greater | greaterOrEqual =>
    cases unsigned <;> rcases form with rfl | rfl <;>
    · refine ⟨_, rfl, ?_⟩
      simp only [ask]
      generalize P.compare _ v w = r
      rcases r with _ | (_ | _ | _) <;> rfl

section

open Code

variable {code : Code} {k : Nat} (stack : List V) (memory : M)

theorem step?_of_readsAt {reading : Reading} (h : code.ReadsAt k reading) :
    P.step? code.layout.bytes ⟨code.layout.offset k, stack, memory⟩ =
      P.perform (code.layout.offset (k + 1)) stack memory reading := by
  obtain ⟨rest, read, next⟩ := h
  rw [step?, read, ← next]
  rfl

theorem step?_compare {op : Opcode} {test : Test} (h : code.ReadsAt k (.plain op []))
    (known : comparing.lookup op = some test) {v w : V} {answer : Bool}
    (asked : P.ask test (w :: v :: stack) = some (answer, stack)) :
    P.step? code.layout.bytes ⟨code.layout.offset k, w :: v :: stack, memory⟩ =
      some ⟨code.layout.offset (k + 1), P.ofBool answer :: stack, memory⟩ := by
  simp [P.step?_of_readsAt _ _ h, perform, known, asked]

theorem reaches_opposite (zero : code.ReadsAt k (.plain .ldc_i4_0 []))
    (equals : code.ReadsAt (k + 1) (.plain .ceq [])) (b : Bool) :
    P.Reaches code.layout.bytes ⟨code.layout.offset k, P.ofBool b :: stack, memory⟩
      ⟨code.layout.offset (k + 2), P.ofBool (!b) :: stack, memory⟩ := by
  have loaded : P.step? code.layout.bytes ⟨code.layout.offset k, P.ofBool b :: stack, memory⟩ =
      some ⟨code.layout.offset (k + 1), P.ofBool false :: P.ofBool b :: stack, memory⟩ :=
    P.step?_of_readsAt _ _ zero
  have asked : P.ask ⟨false, fun r => r == some .eq⟩ (P.ofBool false :: P.ofBool b :: stack) =
      some (!b, stack) := by
    have same := P.compare_ofBool b false
    cases b <;> simp [ask, same]
  exact .tail (.single loaded) (P.step?_compare stack memory equals rfl asked)

end

end Processor

namespace Compile

open Code Processor

variable {form : BranchForm} {target : Label}

theorem admits_negate (op : Comparison) (unordered : Bool) (r : Option Ordering) :
    (negate op).admits unordered r = !op.admits (!unordered) r := by
  cases op with
  | equal => rfl
  | notEqual => simp [negate, Comparison.admits, bne]
  | less | lessOrEqual | greater | greaterOrEqual =>
    rcases r with _ | (_ | _ | _)
    · simp [negate, Comparison.admits]
    all_goals rfl

/-- The values of two expressions are computed one after the other, from a place in the code on. -/
def Operands (ctx : BodyContext) (code : Code) (left right : Expression) (place : Nat) (y : State) :
    Prop :=
  ∃ x x', x.draft.code.stop = place ∧ Site ctx code left (x, x') ∧ Site ctx code right (x', y)

section

variable {V M : Type} (P : Processor V M)

/-- How the two values on the stack compare decides where the machine goes on, and with what on the
stack. -/
def Answers (l : Code.Layout) (unsigned : Bool) (place : Nat)
    (outcome : Option Ordering → List V → Nat × List V) : Prop :=
  ∀ v w stack memory, P.Reaches l.bytes ⟨l.offset place, w :: v :: stack, memory⟩
    ⟨l.offset (outcome (P.compare unsigned v w) stack).1, (outcome (P.compare unsigned v w) stack).2,
      memory⟩

variable (ctx : BodyContext) (code : Code) (l : Code.Layout) (op : Comparison) (left right : Expression)
  (unsigned : Bool)

/-- The values of two expressions are computed and then compared. -/
def Decides (place : Nat) (outcome : Option Ordering → List V → Nat × List V) : Prop :=
  ∃ y, Operands ctx code left right place y ∧ Answers P l unsigned y.draft.code.stop outcome

/-- The value of a comparison is its answer. -/
def DecidesValue : Prop :=
  ∀ site, Site ctx code (.compare op left right unsigned) site →
    Decides P ctx code l left right unsigned site.1.draft.code.stop fun r stack =>
      (site.2.draft.code.stop, P.ofBool (op.admits (op.unorderedValue unsigned) r) :: stack)

/-- A branch on a comparison is taken if it holds. -/
def DecidesBranch : Prop :=
  ∀ target form site, ForkSite ctx code ⟨.compare op left right unsigned, target, form⟩ site →
    ∃ p, code.position? (.block target) = some p ∧
      Decides P ctx code l left right unsigned site.1.draft.code.stop fun r stack =>
        (if op.admits unsigned r then p else site.2.draft.code.stop, stack)

/-- A comparison chooses one of two values. -/
def DecidesChoice : Prop :=
  ∀ ifTrue ifFalse site,
    Site ctx code (.conditional (.compare op left right unsigned) ifTrue ifFalse) site →
    ∃ t t' f f', Site ctx code ifTrue (t, t') ∧ Site ctx code ifFalse (f, f') ∧
      Decides P ctx code l left right unsigned site.1.draft.code.stop fun r stack =>
        (if op.admits (!unsigned) r then t.draft.code.stop else f.draft.code.stop, stack)

end

variable {V M : Type} (P : Processor V M) {ctx : BodyContext} {code wider : Code} {σ σ' : State}
  {op : Comparison} {unsigned : Bool}

theorem readsAt_of_op (runnable : code.Runnable wider) {o : Opcode} (run : (Compile.op o).Runs σ () σ')
    (within : σ'.draft.code.Extends code) :
    wider.ReadsAt σ.draft.code.stop (.plain o []) ∧ σ'.draft.code.stop = σ.draft.code.stop + 1 ∧
      σ.draft.code.Extends code := by
  obtain rfl := runs_modify.1 run
  exact ⟨runnable.readsAt_simple (within.getElem? Array.getElem?_push_size), Array.size_push ..,
    .trans (.push ..) within⟩

theorem answers_compareValues (runnable : code.Runnable wider)
    (run : (compareValues op unsigned).Runs σ () σ') (within : σ'.draft.code.Extends code) :
    Answers P wider.layout unsigned σ.draft.code.stop fun r stack =>
      (σ'.draft.code.stop, P.ofBool (op.admits (op.unorderedValue unsigned) r) :: stack) := by
  intro v w stack memory
  dsimp only
  obtain ⟨test, known, asked⟩ := P.ask_compareOp op unsigned v w stack
  generalize op.admits _ _ = answer at asked ⊢
  unfold compareValues at run
  generalize compareOp op unsigned = chosen at known asked run
  obtain ⟨o, inverted⟩ := chosen
  simp only [runs_bind] at run
  obtain ⟨_, σ₁, compared, _, σ₂, lowered, _, σ₃, raised, run⟩ := run
  obtain rfl := runs_modify.1 lowered
  obtain rfl := runs_modify.1 raised
  cases inverted with
  | false =>
    obtain ⟨_, rfl⟩ := runs_pure.1 run
    obtain ⟨reads, stop, _⟩ := readsAt_of_op runnable compared within
    rw [Bool.xor_false] at asked
    have step := P.step?_compare stack memory reads known asked
    rw [← stop] at step
    exact .single step
  | true =>
    simp only [if_true, runs_bind] at run
    obtain ⟨_, σ₄, loaded, _, σ₅, equated, lowered⟩ := run
    obtain rfl := runs_modify.1 lowered
    obtain ⟨_, σ₆, zero, raised⟩ := runs_bind.1 loaded
    obtain rfl := runs_modify.1 raised
    obtain ⟨equals, stop₃, within₂⟩ := readsAt_of_op runnable equated within
    obtain ⟨zero, stop₂, within₁⟩ := readsAt_of_op (o := .ldc_i4_0) runnable zero within₂
    obtain ⟨reads, stop₁, _⟩ := readsAt_of_op runnable compared within₁
    rw [Bool.xor_true] at asked
    have step := P.step?_compare stack memory reads known asked
    have opposite := P.reaches_opposite stack memory zero (stop₂ ▸ equals) (!answer)
    have last : σ₅.draft.code.stop = σ₁.draft.code.stop + 2 := stop₃.trans (congrArg (· + 1) stop₂)
    rw [← stop₁] at step
    rw [Bool.not_not] at opposite
    exact .head step (last ▸ opposite)

theorem answers_branch (runnable : code.Runnable wider)
    (run : (branch (.compare op unsigned) target form).Runs σ () σ')
    (within : σ'.draft.code.Extends code) {p : Nat} (there : code.position? target = some p) :
    Answers P wider.layout unsigned σ.draft.code.stop fun r stack =>
      (if op.admits unsigned r then p else σ'.draft.code.stop, stack) := by
  intro v w stack memory
  obtain rfl := runs_modify.1 run
  have stop : (σ.draft.push (.branch (.compare op unsigned) target form)).code.stop =
      σ.draft.code.stop + 1 := Array.size_push ..
  have written : code.instructions[σ.draft.code.stop]? = some
      (.branch (.compare op unsigned) target form) :=
    within.getElem? Array.getElem?_push_size
  obtain ⟨o, distance, forms, reads, place⟩ := runnable.readsAt_branch written there
  obtain ⟨test, known, asked⟩ := P.ask_branch op unsigned v w stack forms
  refine .single ?_
  rw [stop, P.step?_of_readsAt _ _ reads, perform]
  simp only [known, asked, place]
  cases op.admits unsigned (P.compare unsigned v w) <;> rfl

variable {left right : Expression}

theorem decides_condition (runnable : code.Runnable wider) {holds : Bool}
    (run : (condition ctx target form holds (.compare op left right unsigned)).Runs σ () σ')
    (within : σ'.draft.code.Extends code) {p : Nat} (there : code.position? target = some p) :
    Decides P ctx code wider.layout left right unsigned σ.draft.code.stop fun r stack =>
      (if (if holds then op else negate op).admits unsigned r then p else σ'.draft.code.stop,
        stack) := by
  rw [condition] at run
  simp only [runs_bind] at run
  obtain ⟨_, x, first, _, y, second, _, σ₁, lowered, branched⟩ := run
  obtain rfl := runs_modify.1 lowered
  have within₂ : y.draft.code.Extends code := by
    refine .trans ?_ within
    obtain rfl := runs_modify.1 branched
    exact .push ..
  have within₁ := ((composed_parts ctx right).extendsCode second).trans within₂
  exact ⟨y, ⟨σ, x, rfl, ⟨first, within₁⟩, ⟨second, within₂⟩⟩,
    answers_branch P runnable branched within there⟩

theorem decides_value (runnable : code.Runnable wider) :
    DecidesValue P ctx code wider.layout op left right unsigned := by
  intro site h
  have run := h.run
  rw [expression] at run
  simp only [runs_bind] at run
  obtain ⟨_, x, first, _, y, second, compared⟩ := run
  have composed : (compareValues op unsigned).Composed ctx [] := composed_compareValues ..
  have within₂ := (composed.extendsCode compared).trans h.within
  have within₁ := ((composed_parts ctx right).extendsCode second).trans within₂
  exact ⟨y, ⟨_, x, rfl, ⟨first, within₁⟩, ⟨second, within₂⟩⟩,
    answers_compareValues P runnable compared h.within⟩

theorem exists_branch_of_condition {holds : Bool}
    (run : (condition ctx target form holds (.compare op left right unsigned)).Runs σ () σ')
    (within : σ'.draft.code.Extends code) : ∃ i ∈ code.instructions, target ∈ i.targets := by
  simp only [condition, runs_bind] at run
  obtain ⟨_, _, _, _, _, _, _, _, _, branched⟩ := run
  obtain rfl := runs_modify.1 branched
  exact ⟨_, Array.mem_of_getElem? (within.getElem? Array.getElem?_push_size),
    List.mem_singleton_self target⟩

theorem decides_branch (runnable : code.Runnable wider)
    (places : ∀ {i : Instruction}, i ∈ code.instructions → ∀ {l : Label}, l ∈ i.targets →
      ∃ p < code.stop, code.position? l = some p) :
    DecidesBranch P ctx code wider.layout op left right unsigned := by
  intro target form site h
  obtain ⟨frame, run⟩ := h.run
  rw [statement] at run
  obtain ⟨_, _, checked, branched⟩ := runs_bind.1 run
  obtain ⟨rfl, _⟩ := runs_checkTarget checked
  obtain ⟨i, hi, goes⟩ := exists_branch_of_condition branched h.within
  obtain ⟨p, _, there⟩ := places hi goes
  exact ⟨p, there, decides_condition P runnable branched h.within there⟩

theorem decides_choice (runnable : code.Runnable wider) :
    DecidesChoice P ctx code wider.layout op left right unsigned := by
  intro ifTrue ifFalse ⟨σ, σ'⟩ h
  have run := h.run
  simp only [expression, runs_bind] at run
  obtain ⟨otherwise, σ₁, new₁, behind, σ₂, new₂, _, σ₃, tested, before, σ₄, measured, _, σ₅, first,
    _, σ₆, jumped, _, σ₇, restored, _, σ₈, placed, _, σ₉, second, joined⟩ := run
  have start : σ₂.draft.code = σ.draft.code := by
    rw [← (runs_modifyGet.1 new₂).2, ← (runs_modifyGet.1 new₁).2]
  have within₉ : σ₉.draft.code.Extends code := by
    refine .trans ?_ h.within
    obtain rfl := runs_modify.1 joined
    exact .place ..
  have within₈ := ((composed_parts ctx ifFalse).extendsCode second).trans within₉
  have there := runnable.position?_of_place placed within₈
  have within₅ : σ₅.draft.code.Extends code := by
    refine .trans ?_ within₈
    obtain rfl := runs_modify.1 placed
    obtain rfl := runs_modify.1 restored
    obtain rfl := runs_modify.1 jumped
    exact .trans (.push ..) (.place ..)
  have within₄ := ((composed_parts ctx ifTrue).extendsCode first).trans within₅
  obtain rfl : σ₄ = σ₃ := by
    simp only [height, runs_bind, runs_get, runs_pure] at measured
    obtain ⟨_, _, ⟨_, rfl⟩, _, rfl⟩ := measured
    rfl
  obtain ⟨y, operands, reaches⟩ := decides_condition P runnable tested within₄ there
  refine ⟨σ₄, σ₅, σ₈, σ₉, ⟨first, within₅⟩, ⟨second, within₉⟩, y, start ▸ operands,
    fun v w stack memory => ?_⟩
  have reaches := reaches v w stack memory
  simp only [Bool.false_eq_true, if_false, admits_negate] at reaches
  dsimp only
  generalize op.admits _ _ = answer at reaches ⊢
  cases answer <;> exact reaches

/-- Comparisons in the final code of a body: for a value, for a branch and for a conditional value. Each
of the three answers by how the two values compare. They answer alike, unless the values are unordered. -/
theorem comparisons_decide {src : Source} {keepsSymbols : Bool} {row : Nat} {m : Method} {b : Body}
    {s s' : Session} {encoded : MethodBody} {symbols : Option MethodSymbols} {bytes : Bytes}
    (run : (encodeBody src keepsSymbols row m b).Runs s (encoded, symbols) s')
    (encodes : encoded.encode = .ok bytes) :
    ∃ d l s₁, (layOut (.ofBody src keepsSymbols m b) b).Runs s (d, l) s₁ ∧ l.bytes = encoded.code ∧
      (∃ sites, List.Forall₂ (Site (.ofBody src keepsSymbols m b) d.code) b.values sites) ∧
      (∃ sites, List.Forall₂ (ForkSite (.ofBody src keepsSymbols m b) d.code) b.forks sites) ∧
      ∀ {V M : Type} (P : Processor V M) (op : Comparison) (left right : Expression) (unsigned : Bool),
        DecidesValue P (.ofBody src keepsSymbols m b) d.code l op left right unsigned ∧
        DecidesBranch P (.ofBody src keepsSymbols m b) d.code l op left right unsigned ∧
        DecidesChoice P (.ofBody src keepsSymbols m b) d.code l op left right unsigned ∧
        ∀ r, (op.admits (op.unorderedValue unsigned) r = op.admits unsigned r ↔
            r ≠ none ∨ op ∉ [.lessOrEqual, .greaterOrEqual]) ∧
          (op.admits (!unsigned) r = op.admits unsigned r ↔ r ≠ none ∨ op ∈ [.equal, .notEqual]) := by
  have room := encoded.length_code_lt encodes
  obtain ⟨token, d, l, s₁, locals, laidOut, _, _, rfl⟩ := layOut_of_encodeBody run
  obtain ⟨wider, rfl, compiles⟩ := compiles_of_layOut laidOut
  have runnable := compiles.runnable (by rwa [← length_bytes_layout])
  have sites := (composed_body _ b).allSites compiles.run (.refl d.code)
  refine ⟨d, wider.layout, s₁, laidOut, rfl, sites.1, sites.2, fun P op left right unsigned =>
    ⟨decides_value P runnable, ?_, decides_choice P runnable, fun r => ?_⟩⟩
  · exact decides_branch P runnable fun hi => compiles.position_target hi
  · cases op <;> cases unsigned <;> rcases r with _ | (_ | _ | _) <;> decide

def numbers : Processor (Option Int) Unit where
  compare _ v w := do return Ord.compare (← v) (← w)
  compare_eq_iff _ _ := .rfl
  ofBool b := some (if b then 1 else 0)
  compare_ofBool b b' := by cases b <;> cases b' <;> decide
  other _ _ _ _ := none

/-- A value that compares to nothing is not less than two hundred, yet the conditional value takes it as
if it were. -/
theorem comparisons_decide_choice :
    (∃ bytes, chosen.encode = .ok bytes) ∧ Comparison.less.admits false none = false ∧
      ∃ (code : Code) (l : Code.Layout) (t t' : State), l.bytes = chosen.code ∧
        Site (.ofBody courierSource false choosing chooser) code
          (.unary .negate (.parameter 0)) (t, t') ∧
        ∃ start, numbers.Reaches chosen.code ⟨start, [some 200, none], ()⟩
          ⟨l.offset t.draft.code.stop, [], ()⟩ := by
  obtain ⟨symbols, s', run⟩ := encodes_chooser
  have encodes : ∃ bytes, chosen.encode = .ok bytes := ⟨_, rfl⟩
  obtain ⟨d, l, _, _, code, ⟨sites, standing⟩, _, decides⟩ := comparisons_decide run encodes.choose_spec
  obtain ⟨_, _, chooses, _⟩ :=
    decides numbers .less (.parameter 0) (.literal (.int32 200)) false
  cases standing with
  | cons there _ =>
    obtain ⟨t, t', f, f', first, _, y, _, reaches⟩ := chooses _ _ _ there
    exact ⟨encodes, rfl, d.code, l, t, t', code, first, _, code ▸ reaches none (some 200) [] ()⟩

end Compile
end Cil
