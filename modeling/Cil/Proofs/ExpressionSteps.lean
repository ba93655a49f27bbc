import Cil.Proofs.Values
import Cil.Proofs.Walks

/-!
The code of an expression is written by steps. There is one lemma for each action; a token that an
action asks for stays known up to the instruction that it is for. If all operands have values, the draft
counts them right: an expression leaves the stack as it found it, with its values on top.
-/

namespace Cil

open List

/-- An opcode with an operand of a kind moves some values, and control goes on behind it. -/
def Opcode.Does (op : Opcode) (kind : OperandKind) (e : StackEffect) : Prop :=
  op.operand? = some kind ∧ op.effect? = some e ∧ op.transfers = false

instance (op : Opcode) (kind : OperandKind) (e : StackEffect) : Decidable (op.Does kind e) :=
  inferInstanceAs (Decidable (_ ∧ _ ∧ _))

theorem Draft.fallsThrough_push (d : Draft) (i : Instruction) :
    (d.push i).fallsThrough = !i.transfers := by
  simp [fallsThrough, push, Code.push]

theorem Branch.transfers_compare (op : Comparison) (unsigned : Bool) :
    (compare op unsigned).long.transfers = false := by
  cases op <;> cases unsigned <;> rfl

namespace Compile

variable {sound : Prop} {ctx : BodyContext} {v : View} {s : Scene} {N : List Event} {k : Nat}

variable {e : StackEffect} {element arrayType : TypeSig} {o : Opcode} {m : MethodSignature}
  {r : MethodRef} {rank : Option Nat} {kind : TokenKind} {token : Token} {operand : Bytes}
  {named : Named} {depth indices : Nat} {α : Type} {w : α → View} {hasReceiver : Bool}
  {arguments : Nat} {sizes : Nat} {target : Label} {form : BranchForm} {σ σ' : State}
  {c : Compile Unit}

/-- An instruction with such an effect can be written. -/
structure View.Able (sound : Prop) (v : View) (e : StackEffect) : Prop where
  writable : Zone.Writable v.scene.zones
  enough : sound → e.pops ≤ v.depth
  bounded : sound → v.depth ≤ v.peak

theorem Scene.able (hw : Zone.Writable s.zones) (e : StackEffect) (k : Nat) :
    (s.level (k + e.pops)).Able sound e :=
  ⟨hw, fun _ => Nat.le_add_left .., fun _ => Nat.le_refl _⟩

theorem View.Able.flows (h : v.Able sound e) {d : Draft} (fits : v.Fits sound d) {transfers : Bool}
    (next : sound → transfers = false → depth = v.depth - e.pops + e.pushes) (hs : sound) :
    Flows d.maxHeight e transfers v.depth depth :=
  ⟨h.enough hs, Nat.le_trans (h.bounded hs) (fits.peak hs), next hs⟩

theorem walks_instruction {i : Instruction} (depth : Nat)
    (step : ∀ K d t, N ⊆ K → v.Fits sound d → Step sound ctx ⟨v.scene, v.depth, K, d, t⟩
      ⟨v.scene, depth, .instruction d.code.stop v.scene.zones v.depth :: K, d.push i, t⟩) :
    Walks sound ctx v N (instruction i) fun _ => { v with depth, shut := i.transfers } :=
  .modify fun K d t hK fits =>
    ⟨⟨fits.height, fits.peak, fun shut => by simpa [Draft.fallsThrough_push] using shut⟩, _,
      subset_cons_self .., step K d t hK fits⟩

/-- Wherever code can be written, the action takes `p` values from the stack and leaves `q` there. -/
structure Turns (sound : Prop) (ctx : BodyContext) (N : List Event) (c : Compile Unit) (p q : Nat) :
    Prop where
  walks {s : Scene} {k : Nat} : Zone.Writable s.zones →
    Walks sound ctx (s.level (k + p)) N c fun _ => s.level (k + q)

/-- Whatever is known, the action leaves so many values more on the stack. -/
abbrev Yields (sound : Prop) (ctx : BodyContext) (c : Compile Unit) (values : Nat) : Prop :=
  ∀ {N : List Event}, Turns sound ctx N c 0 values

section

variable {c' : Compile Unit} {p q n : Nat}

theorem Turns.bind (h : Turns sound ctx N c p n) (h' : Turns sound ctx N c' n q) :
    Turns sound ctx N (do c; c') p q :=
  ⟨fun hw => (h.walks hw).bind fun _ => h'.walks hw⟩

theorem Turns.check {α : Type} {c : Compile α} {f : α → Compile Unit} {P : α → Prop}
    (checks : ∀ {σ a σ'}, c.Runs σ a σ' → σ = σ' ∧ P a)
    (hf : ∀ a, P a → Turns sound ctx N (f a) p q) : Turns sound ctx N (c >>= f) p q :=
  ⟨fun hw => .bind_check checks fun a known => (hf a known).walks hw⟩

theorem Turns.ask {f : Token → Compile Unit} (named : Named)
    (hf : ∀ token, Turns sound ctx (.token named token :: N) (f token) p q) :
    Turns sound ctx N (emit (named.token ctx.source) >>= f) p q :=
  ⟨fun hw => .bind_named named id (fun _ _ _ run => run) fun token => (hf token).walks hw⟩

theorem Turns.ite {P : Prop} [Decidable P] (h : P → Turns sound ctx N c p q)
    (h' : ¬ P → Turns sound ctx N c' p q) : Turns sound ctx N (if P then c else c') p q :=
  ⟨fun hw => .ite (fun hp => (h hp).walks hw) fun hp => (h' hp).walks hw⟩

theorem Turns.over (h : Turns sound ctx N c 0 n) (h' : Turns sound ctx N c' (p + n) q) :
    Turns sound ctx N (do c; c') p q := by
  refine ⟨fun {_ k} hw => (h.walks (k := k + p) hw).bind fun _ => ?_⟩
  rw [Nat.add_assoc]
  exact h'.walks hw

theorem Turns.one {P : Prop} (h : (sound → P) → Yields sound ctx c n)
    (operand : sound → P ∧ n = 1) : Turns sound ctx N c 0 1 where
  walks hw := ((h fun hs => (operand hs).1).walks hw).settle fun _ => ⟨rfl,
    fun hs => by rw [(operand hs).2], fun hs => by rw [(operand hs).2],
    fun hs => Nat.le_of_eq (by rw [(operand hs).2]), nofun⟩

end

/-- The action writes instructions that together have an effect, and leaves the bookkeeping to the
actions behind it. -/
structure Acts (sound : Prop) (ctx : BodyContext) (N : List Event) (c : Compile Unit)
    (e : StackEffect) : Prop where
  walks {v : View} : v.Able sound e → Walks sound ctx v N c fun _ =>
    { v with depth := v.depth - e.pops + e.pushes, shut := false }

namespace Acts

theorem level {p : Nat} (h : Acts sound ctx N c ⟨p, p⟩) : Turns sound ctx N c p p where
  walks {s k} hw :=
    (h.walks (s.able hw ⟨p, p⟩ k)).settle fun _ => { depth := fun _ => by simp [Scene.level] }

theorem raise (h : Acts sound ctx N c ⟨0, 1⟩) : Turns sound ctx N (do c; Compile.raise 1) 0 1 where
  walks {s k} hw := ((h.walks (s.able hw ⟨0, 1⟩ k)).bind fun _ => walks_raise 1).settle fun _ =>
    { peak := fun _ => Nat.le_max_right .. }

theorem lower (p q : Nat) (h : Acts sound ctx N c ⟨p + q, q⟩) :
    Turns sound ctx N (do c; Compile.lower p) (p + q) q := by
  refine ⟨fun {s k} hw => ((h.walks (s.able hw ⟨p + q, q⟩ k)).bind fun _ => walks_lower p).settle
    fun _ => ⟨rfl, fun _ => ?_, fun _ => ?_, fun _ => ?_, nofun⟩⟩ <;> simp only [Scene.level] <;> omega

theorem drop {p : Nat} (h : Acts sound ctx N c ⟨p, 0⟩) :
    Turns sound ctx N (do c; Compile.lower p) p 0 :=
  lower p 0 h

theorem lower_raise {p : Nat} (h : Acts sound ctx N c ⟨p, 1⟩) :
    Turns sound ctx N (do c; Compile.lower p; Compile.raise 1) p 1 := by
  refine ⟨fun {s k} hw => ((h.walks (s.able hw ⟨p, 1⟩ k)).bind fun _ => (walks_lower p).bind fun _ =>
    walks_raise 1).settle fun _ => ⟨rfl, fun _ => ?_, fun _ => ?_, fun _ => ?_, nofun⟩⟩ <;>
    simp only [Scene.level] <;> omega

theorem finishCall {pops operands : Nat} (h : Acts sound ctx N c ⟨pops, (!m.returnsVoid).toNat⟩)
    (same : sound → operands = pops) :
    Turns sound ctx N (do c; Compile.finishCall operands m) operands (!m.returnsVoid).toNat := by
  refine ⟨fun {s k} hw => ?_⟩
  have able : (s.level (k + operands)).Able sound ⟨pops, (!m.returnsVoid).toNat⟩ :=
    ⟨hw, fun hs => same hs ▸ Nat.le_add_left .., fun _ => Nat.le_refl _⟩
  unfold Compile.finishCall
  refine (h.walks able).bind fun _ => (walks_lower operands).bind fun _ => ?_
  cases m.returnsVoid with
  | true =>
    refine (Walks.pure ()).settle fun _ => ⟨rfl, fun hs => ?_, fun _ => ?_, fun _ => ?_, nofun⟩
    · simp [Scene.level, same hs]
    · simp [Scene.level]
    · simp [Scene.level]
  | false =>
    refine (walks_raise 1).settle fun _ => ⟨rfl, fun hs => ?_, fun _ => ?_, fun _ => ?_, nofun⟩
    · simp [Scene.level, same hs]
    · simp [Scene.level]
    · simp only [Scene.level, Bool.not_false, Bool.toNat_true]
      omega

theorem congr {e' : StackEffect} (h : Acts sound ctx N c e) (same : sound → e = e') :
    Acts sound ctx N c e' where
  walks {v} able :=
    (h.walks ⟨able.writable, fun hs => same hs ▸ able.enough hs, able.bounded⟩).settle fun _ =>
      { depth := fun hs => by rw [same hs] }

theorem cons {c' : Compile Unit} (h : Acts sound ctx N c ⟨0, 0⟩) (h' : Acts sound ctx N c' e) :
    Acts sound ctx N (do c; c') e where
  walks able := (h.walks ⟨able.writable, fun _ => Nat.zero_le _, able.bounded⟩).bind fun _ =>
    h'.walks ⟨able.writable, able.enough, able.bounded⟩

end Acts

theorem step_plain (able : v.Able sound e) (takes : ∀ K, N ⊆ K → o.Takes (tokensOf K) operand)
    (exits : o = .ret → ∀ K, N ⊆ K →
      v.scene.zones = [] ∨ InBlock ctx K v.scene.zones (· = .outermost))
    (rethrows : o = .rethrow → Zone.handling v.scene.zones = true)
    (moves : sound → o.Moves ctx.source.module ctx.method.signature (tokensOf N) operand e)
    (next : sound → o.transfers = false → depth = v.depth - e.pops + e.pushes) (stays : o ≠ .jmp)
    (K : List Event) (d : Draft) (t : Session) (hK : N ⊆ K) (fits : v.Fits sound d) :
    Step sound ctx ⟨v.scene, v.depth, K, d, t⟩
      ⟨v.scene, depth, .instruction d.code.stop v.scene.zones v.depth :: K,
        d.push (.simple o operand), t⟩ :=
  .plain o operand depth able.writable (takes K hK) (fun isRet => exits isRet K hK) rethrows
    (fun hs => ⟨e, (moves hs).mono (tokensOf_subset hK), able.flows fits next hs⟩) stays

theorem acts_plain (takes : ∀ K, N ⊆ K → o.Takes (tokensOf K) operand)
    (goesOn : o.transfers = false)
    (moves : sound → o.Moves ctx.source.module ctx.method.signature (tokensOf N) operand e) :
    Acts sound ctx N (opWith o operand) e where
  walks {v} able := by
    have walks : Walks sound ctx v N (opWith o operand) _ := walks_instruction
      (v.depth - e.pops + e.pushes) (step_plain able takes ?_ ?_ moves (fun _ _ => rfl) ?_)
    · exact walks.settle fun _ => {}
    all_goals
      rintro rfl
      cases goesOn

theorem acts_op (h : o.Does .nothing e) : Acts sound ctx N (op o) e :=
  acts_plain (fun _ _ => by simp [Opcode.Takes, h.1]) h.2.2 fun _ => .fixed h.2.1

theorem acts_opWith (h : o.Does (.number operand.length) e) :
    Acts sound ctx N (opWith o operand) e :=
  acts_plain (fun _ _ => by simp [Opcode.Takes, h.1]) h.2.2 fun _ => .fixed h.2.1

theorem acts_token (known : .token named token ∈ N) (operand : o.operand? = some (.token kind))
    (accepts : kind.accepts named.kind = true) (goesOn : o.transfers = false)
    (moves : ∀ value, token.encode = .ok value → sound →
      o.Moves ctx.source.module ctx.method.signature (tokensOf N) (.le 4 value) e) :
    Acts sound ctx N (opToken o token) e where
  walks {v} able := by
    refine .bind_encodeToken fun value encoded =>
      (acts_plain (fun K hK => ?_) goesOn (moves value encoded)).walks able
    simp only [Opcode.Takes, operand]
    exact ⟨named, token, value, mem_tokensOf.2 (hK known), accepts, encoded, rfl⟩

theorem acts_opToken (known : .token named token ∈ N) (h : o.Does (.token kind) e)
    (accepts : kind.accepts named.kind = true) : Acts sound ctx N (opToken o token) e :=
  acts_token known h.1 accepts h.2.2 fun _ _ _ => .fixed h.2.1

theorem acts_call (known : .token named token ∈ N) (operand : o.operand? = some (.token kind))
    (accepts : kind.accepts named.kind = true) (goesOn : o.transfers = false)
    (calls : sound → ∃ callee, named.callee? ctx.source.module = some callee ∧
      o.callEffect? callee = some e) : Acts sound ctx N (opToken o token) e := by
  refine acts_token known operand accepts goesOn fun value encoded hs => ?_
  obtain ⟨callee, found, effect⟩ := calls hs
  exact .calling (mem_tokensOf.2 known) encoded found effect

section

variable {f : Token → Compile α}

theorem walks_bind_typeToken {t : TypeSig} {f : TypeDefOrRef → Compile α}
    (h : ∀ r, Walks sound ctx v (.token (.type t) r.token :: N) (f r) w) :
    Walks sound ctx v N (emit (typeToken ctx.source t) >>= f) w := by
  refine .bind_named (.type t) CodedIndex.token (fun s r s' run => ?_) h
  exact Emit.runs_bind.2 ⟨r, s', run, Emit.runs_pure.2 ⟨rfl, rfl⟩⟩

theorem walks_bind_token (named : Named)
    (h : ∀ token, Walks sound ctx v (.token named token :: N) (f token) w) :
    Walks sound ctx v N (emit (named.token ctx.source) >>= f) w :=
  .bind_named named id (fun _ _ _ run => run) h

theorem walks_bind_signature
    (h : ∀ token, Walks sound ctx v (.token (.signature m) token :: N) (f token) w) :
    Walks sound ctx v N (do
      let blob ← emit (methodBlob ctx.source m 0 [])
      f (← emit (standAloneSig blob))) w := by
  have whole := Walks.bind_named (c := do standAloneSig (← methodBlob ctx.source m 0 []))
    (.signature m) id (fun _ _ _ run => run) h
  refine ⟨fun hK fits run => ?_⟩
  simp only [runs_bind, runs_emit] at run
  obtain ⟨blob, _, ⟨s₁, first, rfl⟩, token, _, ⟨s₂, second, rfl⟩, rest⟩ := run
  refine whole.steps hK fits (runs_bind.2 ⟨token, _, runs_emit.2 ⟨s₂, ?_, rfl⟩, rest⟩)
  exact Emit.runs_bind.2 ⟨blob, s₁, first, second⟩

end

theorem runs_localSlot {index slot : Nat} (run : (localSlot ctx index).Runs σ slot σ') :
    σ = σ' ∧ index = slot ∧ slot ≤ 0xFFFF := by
  simp [localSlot] at run
  grind

theorem runs_parameterSlot {index slot : Nat} (run : (parameterSlot ctx index).Runs σ slot σ') :
    σ = σ' ∧ index + ctx.method.signature.isInstance.toNat = slot ∧ slot ≤ 0xFFFF := by
  simp [parameterSlot] at run
  grind

theorem acts_opType (t : TypeSig) (h : o.Does (.token .type) e) :
    Acts sound ctx N (opType ctx o t) e where
  walks able := walks_bind_typeToken fun _ =>
    (acts_opToken mem_cons_self h rfl).walks able

theorem slotOp_eq (slot : Nat) (first : Option Opcode) (short long : Opcode)
    (hFirst : ∀ o ∈ first, ∀ k ≤ 3, (o.plus k).Does .nothing e) (hShort : short.Does (.number 1) e)
    (hLong : long.Does (.number 2) e) :
    ∃ o operand, slotOp slot first short long = opWith o operand ∧
      (∀ known, o.Takes known operand) ∧ o.transfers = false ∧ o.effect? = some e := by
  unfold slotOp
  split
  · rename_i o isFirst
    have does := hFirst o rfl slot (of_decide_eq_true isFirst)
    exact ⟨_, [], rfl, fun _ => by simp [Opcode.Takes, does.1], does.2.2, does.2.1⟩
  · split
    · exact ⟨_, _, rfl, fun _ => by simp [Opcode.Takes, hShort.1], hShort.2.2, hShort.2.1⟩
    · exact ⟨_, _, rfl, fun _ => by simp [Opcode.Takes, hLong.1], hLong.2.2, hLong.2.1⟩

theorem acts_slotOp {slot : Nat} {first : Option Opcode} {short long : Opcode}
    (hFirst : ∀ o ∈ first, ∀ k ≤ 3, (o.plus k).Does .nothing e) (hShort : short.Does (.number 1) e)
    (hLong : long.Does (.number 2) e) : Acts sound ctx N (slotOp slot first short long) e := by
  obtain ⟨o, operand, same, takes, goesOn, effect⟩ :=
    slotOp_eq slot first short long hFirst hShort hLong
  rw [same]
  exact acts_plain (fun _ _ => takes _) goesOn fun _ => .fixed effect

theorem yields_loadLocal (index : Nat) : Yields sound ctx (loadLocal ctx index) 1 :=
  .check runs_localSlot fun _ _ => (acts_slotOp (by decide) (by decide) (by decide)).raise

theorem turns_storeLocal (index : Nat) : Turns sound ctx N (storeLocal ctx index) 1 0 :=
  .check runs_localSlot fun _ _ => (acts_slotOp (by decide) (by decide) (by decide)).drop

theorem yields_loadParameter (index : Nat) : Yields sound ctx (loadParameter ctx index) 1 :=
  .check runs_parameterSlot fun _ _ => (acts_slotOp (by decide) (by decide) (by decide)).raise

theorem acts_int32Op (v : Int32) : Acts sound ctx N (instruction (int32Op v)) ⟨0, 1⟩ := by
  have few : ∀ k ≤ 8, (Opcode.ldc_i4_0.plus k).Does .nothing ⟨0, 1⟩ := by decide
  rw [int32Op]
  split
  · exact acts_op (by decide)
  · split
    · rename_i range
      have bound : v.toNatClampNeg ≤ 8 := by
        have := Int32.le_iff_toInt_le.1 range.2
        simp only [Int32.toNatClampNeg]
        change v.toInt ≤ 8 at this
        omega
      exact acts_op (few _ bound)
    · split
      · exact acts_opWith ⟨rfl, rfl, rfl⟩
      · exact acts_opWith (by rw [Bytes.length_le]; decide)

theorem yields_loadInt32 (v : Int32) : Yields sound ctx (loadInt32 v) 1 :=
  (acts_int32Op v).raise

theorem yields_literal (v : Literal) : Yields sound ctx (literal v) 1 := by
  cases v with
  | null => exact (acts_op (by decide)).raise
  | boolean | char | int32 => exact yields_loadInt32 _
  | int64 v =>
    exact .ite (fun _ => (yields_loadInt32 _).bind (acts_op (by decide)).level)
      fun _ => (acts_opWith (by rw [Bytes.length_le]; decide)).raise
  | float32 | float64 => exact (acts_opWith (by rw [Bytes.length_le]; decide)).raise
  | string v =>
    refine ⟨fun hw => .bind_named (.text v) Token.userString (fun s offset s' run => ?_) fun _ =>
      (acts_opToken mem_cons_self ⟨rfl, rfl, rfl⟩ rfl).raise.walks hw⟩
    exact Emit.runs_bind.2 ⟨offset, s', run, Emit.runs_pure.2 ⟨rfl, rfl⟩⟩

theorem walks_bind_isReference {t : TypeSig} {f : Bool → Compile α}
    (h : ∀ b, Walks sound ctx v N (f b) w) : Walks sound ctx v N (isReference ctx t >>= f) w := by
  refine .bind_check (P := fun _ => True) (fun run => ?_) fun b _ => h b
  unfold isReference at run
  split at run <;> simp_all [isValueType]
  all_goals
    obtain ⟨_, ⟨_, ⟨_, rfl⟩, _⟩, rfl⟩ := run
    rfl

theorem acts_typedOp {own? : TypeSig → Option Opcode} {reference general : Opcode} (t : TypeSig)
    (hOwn : ∀ t, ∀ o ∈ own? t, o.Does .nothing e) (hReference : reference.Does .nothing e)
    (hGeneral : general.Does (.token .type) e) :
    Acts sound ctx N (typedOp ctx own? reference general t) e := by
  unfold typedOp
  split
  · rename_i o found
    exact acts_op (hOwn _ o found)
  · exact ⟨fun able => walks_bind_isReference fun _ => .ite
      (fun _ => (acts_op hReference).walks able) fun _ => (acts_opType t hGeneral).walks able⟩

theorem does_loadElementOp? (t : TypeSig) : ∀ o ∈ loadElementOp? t, o.Does .nothing ⟨2, 1⟩ := by
  unfold loadElementOp?
  split <;> first | (rintro _ ⟨⟩; decide) | nofun

theorem does_storeElementOp? (t : TypeSig) : ∀ o ∈ storeElementOp? t, o.Does .nothing ⟨3, 0⟩ := by
  unfold storeElementOp?
  split <;> first | (rintro _ ⟨⟩; decide) | nofun

theorem does_loadIndirectOp? (t : TypeSig) : ∀ o ∈ loadIndirectOp? t, o.Does .nothing ⟨1, 1⟩ := by
  unfold loadIndirectOp?
  split <;> first | (rintro _ ⟨⟩; decide) | nofun

theorem does_storeIndirectOp? (t : TypeSig) :
    ∀ o ∈ storeIndirectOp? t, o.Does .nothing ⟨2, 0⟩ := by
  unfold storeIndirectOp?
  split <;> first | (rintro _ ⟨⟩; decide) | nofun

theorem does_binaryOp (operator : BinaryOp) (unsigned checked : Bool) :
    (binaryOp operator unsigned checked).Does .nothing ⟨2, 1⟩ := by
  cases operator <;> cases unsigned <;> cases checked <;> decide

theorem does_unaryOp (operator : UnaryOp) : (unaryOp operator).Does .nothing ⟨1, 1⟩ := by
  cases operator <;> decide

theorem does_convertOps (result : NumericType) (checked unsignedSource : Bool) :
    ∀ o ∈ convertOps result checked unsignedSource, o.Does .nothing ⟨1, 1⟩ := by
  cases result <;> cases checked <;> cases unsignedSource <;> decide

theorem does_compareOp (comparison : Comparison) (unsigned : Bool) :
    (compareOp comparison unsigned).1.Does .nothing ⟨2, 1⟩ := by
  cases comparison <;> cases unsigned <;> decide

theorem turns_compareValues (comparison : Comparison) (unsigned : Bool) :
    Turns sound ctx N (compareValues comparison unsigned) 2 1 := by
  have compared : Turns sound ctx N (do
      op (compareOp comparison unsigned).1
      lower 2
      raise 1) 2 1 :=
    (acts_op (does_compareOp comparison unsigned)).lower_raise
  have inverted : Turns sound ctx N (do
      loadInt32 0
      op .ceq
      lower 1) 1 1 :=
    (yields_loadInt32 0).over ((acts_op (by decide)).lower 1 1)
  have whole := compared.bind (.ite (P := (compareOp comparison unsigned).2 = true)
    (fun _ => inverted) fun _ => ⟨fun _ => .pure ()⟩)
  simpa only [compareValues, bind_assoc] using whole

/-- How an array is accessed: a vector with one index, any other array with its rank. -/
inductive IsElement (arrayType : TypeSig) (element : TypeSig) : (indices : Nat) → Option Nat → Prop
  | vector : IsElement arrayType element 1 none
  | array {shape} (h : arrayType.unmodified = .array element shape) :
      IsElement arrayType element shape.rank (some shape.rank)

theorem runs_elementType {x : TypeSig × Option Nat}
    (run : (elementType ctx arrayType indices).Runs σ x σ') :
    σ = σ' ∧ IsElement arrayType x.1 indices x.2 := by
  unfold elementType at run
  grind [runs_pure, runs_fault, IsElement]

theorem acts_callArray {returnType : TypeSig} {name : String} {rank : Nat} {value : List TypeSig} :
    Acts sound ctx N (callArray ctx arrayType name returnType rank value)
      ⟨rank + value.length + 1, (!({ returnType } : MethodSignature).returnsVoid).toNat⟩ where
  walks able := walks_bind_token (.arrayMethod ..) fun _ =>
    (acts_call mem_cons_self rfl rfl rfl fun _ => ⟨_, rfl, by
      simp [Opcode.callEffect?, Callee.ofSignature, Callee.operands, Callee.results,
        MethodSignature.returnsVoid]⟩).walks able

theorem acts_loadElement (h : IsElement arrayType element indices rank)
    (value : sound → (Target.element .this arrayType []).hasValue = true) :
    Acts sound ctx N (loadElement ctx arrayType element rank) ⟨1 + indices, 1⟩ := by
  cases h with
  | vector => exact acts_typedOp _ does_loadElementOp? (by decide) (by decide)
  | array found =>
    refine acts_callArray.congr fun hs => ?_
    have := value hs
    simp only [Target.hasValue, found, Bool.not_eq_true'] at this
    simp [this, Nat.add_comm]

theorem acts_storeElement (h : IsElement arrayType element indices rank) :
    Acts sound ctx N (storeElement ctx arrayType element rank) ⟨2 + indices, 0⟩ := by
  cases h with
  | vector => exact acts_typedOp _ does_storeElementOp? (by decide) (by decide)
  | array found =>
    refine acts_callArray.congr fun _ => ?_
    simp [MethodSignature.returnsVoid, TypeSig.unmodified, TypeSig.primitive?]
    omega

theorem acts_elementAddress (h : IsElement arrayType element indices rank) :
    Acts sound ctx N (elementAddress ctx arrayType element rank) ⟨1 + indices, 1⟩ := by
  cases h with
  | vector => exact acts_opType _ (by decide)
  | array found =>
    refine acts_callArray.congr fun _ => ?_
    simp [MethodSignature.returnsVoid, TypeSig.unmodified, TypeSig.primitive?, Nat.add_comm]

theorem walks_bind_fieldAccess {r : FieldRef} {f : Bool × Token → Compile α}
    (h : ∀ token, Walks sound ctx v (.token (.field r) token :: N) (f (!hasReceiver, token)) w) :
    Walks sound ctx v N (fieldAccess ctx r hasReceiver >>= f) w := by
  simp only [fieldAccess, bind_assoc]
  refine .bind_ofExcept fun d _ => walks_bind_token (.field _) fun token => ?_
  cases d.isStatic <;> cases hasReceiver <;> simp_all

theorem runs_calledSignature (run : (calledSignature ctx r hasReceiver arguments).Runs σ m σ') :
    σ = σ' ∧ ∃ d, ctx.source.module.methodDef r.method = .ok d ∧ d.signature = m ∧
      arguments = m.parameters.length + r.varArgTypes.length ∧ m.isInstance = hasReceiver := by
  simp only [calledSignature, runs_bind, runs_lookup] at run
  obtain ⟨d, _, ⟨found, rfl⟩, rest⟩ := run
  cases isInstance : d.signature.isInstance <;> cases hasReceiver <;> simp_all

theorem acts_callOp {callee : Callee} (isVirtual isTail : Bool) (constrained : Option TypeSig)
    (found : (Named.method r).callee? ctx.source.module = some callee) :
    Acts sound ctx N (callOp ctx r isVirtual isTail constrained)
      ⟨callee.operands, callee.results⟩ where
  walks able := by
    refine walks_bind_token (.method _) fun token => ?_
    have call (isVirtual : Bool) : Acts sound ctx (.token (.method r) token :: N)
        (opToken (if isVirtual then .callvirt else .call) token)
        ⟨callee.operands, callee.results⟩ := by
      cases isVirtual <;>
        exact acts_call mem_cons_self rfl rfl rfl fun _ => ⟨callee, found, rfl⟩
    have tailed (isVirtual : Bool) : Acts sound ctx (.token (.method r) token :: N) (do
        if isTail then op .tail
        opToken (if isVirtual then .callvirt else .call) token)
        ⟨callee.operands, callee.results⟩ := by
      cases isTail with
      | false => exact call isVirtual
      | true => exact .cons (acts_op (by decide)) (call isVirtual)
    cases constrained with
    | none => exact (tailed _).walks able
    | some t => exact (Acts.cons (acts_opType t (by decide)) (tailed _)).walks able

theorem runs_checkConstructor (run : (checkConstructor ctx r arguments).Runs σ () σ') :
    σ = σ' ∧ ∃ d, ctx.source.module.methodDef r.method = .ok d ∧
      arguments = d.signature.parameters.length := by
  simp [checkConstructor] at run
  grind

theorem runs_checkArrayCreation (run : (checkArrayCreation ctx arrayType sizes).Runs σ () σ') :
    σ = σ' ∧ ∀ element, arrayType.unmodified = .vector element → sizes = 1 := by
  unfold checkArrayCreation at run
  split at run <;> simp_all

theorem turns_createArray (h : ∀ element, arrayType.unmodified = .vector element → sizes = 1) :
    Turns sound ctx N (createArray ctx arrayType sizes) sizes 1 := by
  unfold createArray
  split
  · rename_i element isVector
    obtain rfl := h element isVector
    exact (acts_opType element (by decide)).lower_raise
  · exact .ask (.arrayMethod ..) fun _ => (acts_call mem_cons_self rfl rfl rfl fun _ =>
      ⟨_, rfl, by simp [Callee.ofSignature]⟩).lower_raise

theorem acts_loadToken (source : TokenSource) :
    Acts sound ctx N (do opToken .ldtoken (← tokenOf ctx source)) ⟨0, 1⟩ where
  walks able := by
    cases source with
    | type t =>
      simp only [tokenOf, bind_assoc, pure_bind]
      exact walks_bind_typeToken fun _ =>
        (acts_opToken mem_cons_self ⟨rfl, rfl, rfl⟩ rfl).walks able
    | method r =>
      exact walks_bind_token (.method _) fun _ =>
        (acts_opToken mem_cons_self ⟨rfl, rfl, rfl⟩ rfl).walks able
    | field r =>
      exact walks_bind_token (.field _) fun _ =>
        (acts_opToken mem_cons_self ⟨rfl, rfl, rfl⟩ rfl).walks able

theorem turns_functionPointerOp (hasReceiver : Bool) (known : .token (.method r) token ∈ N) :
    Turns sound ctx N (functionPointerOp token hasReceiver) hasReceiver.toNat 1 := by
  cases hasReceiver with
  | true => exact (acts_opToken known ⟨rfl, rfl, rfl⟩ rfl).level
  | false => exact (acts_opToken known ⟨rfl, rfl, rfl⟩ rfl).raise

theorem walks_branch {b : Branch} (depth : Nat) (able : v.Able sound ⟨b.pops, 0⟩)
    (reaches : ∀ K, N ⊆ K → Reaches sound ctx K v.scene (b = .leave)
      (if b = .leave then 0 else v.depth - b.pops) target)
    (next : sound → b.long.transfers = false → depth = v.depth - b.pops) :
    Walks sound ctx v N (branch b target form) fun _ =>
      { v with depth, shut := b.long.transfers } :=
  walks_instruction depth fun K _ _ hK fits =>
    .branch b target form depth able.writable (reaches K hK) (able.flows fits next)

def Scene.awaiting (s : Scene) (l : Label) (depth : Nat) : Scene :=
  { s with pending := ⟨l, s.zones, depth⟩ :: s.pending }

def Scene.fork (s : Scene) (otherwise behind k : Nat) : Scene :=
  (s.awaiting (.internal otherwise) k).awaiting (.internal behind) (k + 1)

theorem walks_bind_newLabel {f : Label → Compile α} (depth : Nat)
    (h : ∀ n, Walks sound ctx { v with scene := v.scene.awaiting (.internal n) depth } N
      (f (.internal n)) w) : Walks sound ctx v N (newLabel >>= f) w := by
  refine .bind_run fun {K σ a σ'} hK fits run => ?_
  obtain ⟨rfl, rfl⟩ := runs_modifyGet.1 run
  exact ⟨{ v with scene := v.scene.awaiting (.internal σ.draft.internalLabels) depth }, [],
    { fits with }, .single (.label depth), h _⟩

theorem walks_place (p : Pending) (rest : List Pending) (hw : Zone.Writable v.scene.zones)
    (perm : v.scene.pending.Perm (p :: rest)) (zones : p.zones = v.scene.zones)
    (depth : sound → v.depth = p.depth) :
    Walks sound ctx v N (place p.label) fun _ =>
      { v with scene := { v.scene with pending := rest }, shut := false } :=
  .modify fun _ _ _ _ fits => ⟨⟨fits.height, fits.peak, nofun⟩, _, subset_cons_self ..,
    .place p rest hw perm zones depth⟩

theorem walks_lower_branch {count : Nat} (b : Branch) (goesOn : b.long.transfers = false)
    (pops : b.pops = count) (hw : Zone.Writable s.zones)
    (reaches : ∀ K, N ⊆ K → Reaches sound ctx K s false k target) :
    Walks sound ctx (s.level (k + count)) N (do lower count; branch b target form) fun _ =>
      s.level k := by
  subst pops
  have stays : b ≠ .leave := by
    rintro rfl
    cases goesOn
  refine ((walks_lower b.pops).bind fun _ => walks_branch k ⟨hw, ?_, ?_⟩ (fun K hK => ?_) ?_).settle
    fun _ => { height := fun _ => Nat.add_sub_cancel .., peak := fun _ => Nat.le_add_right .. }
  · exact fun _ => Nat.le_add_left ..
  · exact fun _ => Nat.le_refl _
  · rw [if_neg stays, decide_eq_false stays]
    simpa [Scene.level] using reaches K hK
  · exact fun _ _ => (Nat.add_sub_cancel ..).symm

theorem reaches_pending {K : List Event} {n : Nat} (h : ⟨.internal n, s.zones, k⟩ ∈ s.pending) :
    Reaches sound ctx K s false k (.internal n) :=
  ⟨_, h, rfl, rfl, fun _ => rfl⟩

/-- A field is read from the object that it belongs to, or from its type. -/
theorem yields_fieldOp {r : FieldRef} {object : Option Expression} {static instance_ : Opcode}
    (receives : Yields sound ctx (receiver ctx object) object.isSome.toNat)
    (isStatic : static.Does (.token .field) ⟨0, 1⟩) (isInstance : instance_.Does (.token .field) ⟨1, 1⟩) :
    Yields sound ctx (do
      let (isStatic, token) ← fieldAccess ctx r object.isSome
      receiver ctx object
      if isStatic then opToken static token
      else
        opToken instance_ token
        lower 1
      raise 1) 1 := by
  refine ⟨fun hw => walks_bind_fieldAccess fun token => (receives.walks hw).bind fun _ => ?_⟩
  cases object with
  | none => exact (acts_opToken mem_cons_self isStatic rfl).raise.walks hw
  | some e => exact (acts_opToken mem_cons_self isInstance rfl).lower_raise.walks hw

theorem yields_elementOp {array : Expression} {es : List Expression}
    {access : TypeSig → Option Nat → Compile Unit} (one : Yields sound ctx (expression ctx array) 1)
    (places : Yields sound ctx (expressions ctx es) es.length)
    (acts : ∀ {N element rank}, IsElement arrayType element es.length rank →
      Acts sound ctx N (access element rank) ⟨1 + es.length, 1⟩) :
    Yields sound ctx (do
      let (element, rank) ← elementType ctx arrayType es.length
      expression ctx array
      expressions ctx es
      access element rank
      lower (1 + es.length)
      raise 1) 1 :=
  .check runs_elementType fun _ isElement => one.bind (places.over (acts isElement).lower_raise)

theorem yields_conditional {test : Condition} {ifTrue ifFalse : Expression}
    (tests : ∀ {target : Label} {s : Scene} {k : Nat} {N : List Event}, Zone.Writable s.zones →
      (∀ K, N ⊆ K → Reaches sound ctx K s false k target) →
        Walks sound ctx (s.level k) N (condition ctx target .auto false test) fun _ => s.level k)
    (first : Yields sound ctx (expression ctx ifTrue) 1)
    (second : Yields sound ctx (expression ctx ifFalse) 1) :
    Yields sound ctx (expression ctx (.conditional test ifTrue ifFalse)) 1 := by
  refine ⟨fun {s k} hw => ?_⟩
  rw [expression]
  refine walks_bind_newLabel k fun otherwise => walks_bind_newLabel (k + 1) fun behind => ?_
  refine .bind (tests (s := s.fork otherwise behind k) hw fun _ _ => reaches_pending ?_) fun _ =>
    .bind_height fun before same => ?_
  · exact mem_cons_of_mem _ mem_cons_self
  refine (first.walks (s := s.fork ..) hw).bind fun _ =>
    .bind (walks_branch k ⟨hw, ?_, ?_⟩ (fun _ _ => ?_) nofun) fun _ =>
      (walks_setHeight before).bind fun _ => ?_
  · exact fun _ => Nat.zero_le _
  · exact fun _ => Nat.le_refl _
  · exact reaches_pending mem_cons_self
  refine .bind (walks_place ⟨_, s.zones, k⟩ _ hw (.swap ..) rfl fun _ => rfl) fun _ => .from_settled _ ?_
    ((second.walks (s := s.awaiting ..) hw).bind fun _ =>
      walks_place ⟨_, s.zones, k + 1⟩ s.pending hw (.refl _) rfl fun _ => rfl)
  exact { height := same, peak := fun _ => Nat.le_succ _ }

section

variable (ctx)

mutual

theorem yields_expression (e : Expression) (hs : sound → e.Sound ctx.source.module) :
    Yields sound ctx (expression ctx e) (e.values ctx.source.module) :=
  match e with
  | .literal v => by
    rw [expression]
    exact yields_literal v
  | .variable index => by
    rw [expression]
    exact yields_loadLocal index
  | .parameter index => by
    rw [expression]
    exact yields_loadParameter index
  | .this => by
    rw [expression]
    exact .ite (fun _ => ⟨fun _ => .bind_fault⟩) fun _ => (acts_op (by decide)).raise
  | .load target => by
    rw [expression]
    exact yields_load target hs
  | .addressOf target => by
    rw [expression]
    exact yields_addressOf target hs
  | .call method object arguments isVirtual isTail constrained => by
    rw [expression]
    refine .check runs_calledSignature fun _ called => ?_
    obtain ⟨d, found, rfl, count, isInstance⟩ := called
    have callee := Named.callee?_method found
    refine (yields_receiver object fun h => (hs h).1).bind
      ((yields_expressions arguments fun h => (hs h).2).over ?_)
    rw [Expression.values, callee, Nat.add_comm object.isSome.toNat, ← isInstance]
    exact Acts.finishCall (acts_callOp isVirtual isTail constrained callee)
      fun _ => by rw [count]; rfl
  | .callIndirect m function arguments => by
    rw [expression]
    refine (yields_expressions arguments fun h => (hs h).1).bind
      ((Turns.one (yields_expression function) fun h => (hs h).2.1).over ⟨fun hw =>
        walks_bind_signature fun token => ?_⟩)
    rw [Expression.values]
    refine (Acts.finishCall (acts_call mem_cons_self rfl rfl rfl fun _ => ⟨_, rfl, rfl⟩)
      fun h => ?_).walks hw
    rw [(hs h).2.2]
    rfl
  | .construct constructor arguments => by
    rw [expression]
    refine .check runs_checkConstructor fun _ checked => ?_
    obtain ⟨d, found, count⟩ := checked
    refine (yields_expressions arguments fun h => (hs h).1).bind
      (.ask (.method _) fun token => Acts.lower_raise ?_)
    refine acts_call mem_cons_self rfl rfl rfl fun h => ⟨_, Named.callee?_method found, ?_⟩
    simp [Callee.ofSignature, (hs h).2, count]
  | .newArray arrayType sizes => by
    rw [expression]
    exact .check runs_checkArrayCreation fun _ h =>
      (yields_expressions sizes hs).bind (turns_createArray h)
  | .arrayLength array => by
    rw [expression]
    exact (Turns.one (yields_expression array) hs).bind
      (.bind (acts_op (by decide)).level (acts_op (by decide)).level)
  | .binary operator left right unsigned checked => by
    rw [expression]
    exact (Turns.one (yields_expression left) fun h => (hs h).1).bind
      ((Turns.one (yields_expression right) fun h => (hs h).2).over
        ((acts_op (does_binaryOp operator unsigned checked)).lower 1 1))
  | .unary operator operand => by
    rw [expression]
    exact (Turns.one (yields_expression operand) hs).bind (acts_op (does_unaryOp operator)).level
  | .compare comparison left right unsigned => by
    rw [expression]
    exact (Turns.one (yields_expression left) fun h => (hs h).1).bind
      ((Turns.one (yields_expression right) fun h => (hs h).2).over
        (turns_compareValues comparison unsigned))
  | .conditional test ifTrue ifFalse =>
    yields_conditional (walks_condition test fun h => (hs h).1)
      (.one (yields_expression ifTrue) fun h => (hs h).2.1)
      (.one (yields_expression ifFalse) fun h => (hs h).2.2)
  | .convert result operand checked unsignedSource => by
    rw [expression]
    exact (Turns.one (yields_expression operand) hs).bind ⟨fun hw => .forM fun o ho =>
      (acts_op (does_convertOps result checked unsignedSource o ho)).level.walks hw⟩
  | .box type operand | .castClass type operand | .isInstance type operand => by
    rw [expression]
    exact (Turns.one (yields_expression operand) hs).bind (acts_opType type (by decide)).level
  | .unbox valueType operand addressOnly => by
    rw [expression]
    refine (Turns.one (yields_expression operand) hs).bind (acts_opType valueType ?_).level
    cases addressOnly <;> decide
  | .sizeOf t => by
    rw [expression]
    exact (acts_opType t (by decide)).raise
  | .token source => by
    rw [expression, ← bind_assoc]
    exact (acts_loadToken source).raise
  | .functionPointer method object => by
    rw [expression]
    exact .ask (.method _) fun token =>
      (yields_receiver object hs).bind (turns_functionPointerOp _ mem_cons_self)
  | .stackAlloc size => by
    rw [expression]
    exact (Turns.one (yields_expression size) hs).bind (acts_op (by decide)).level

theorem yields_expressions (es : List Expression) (hs : sound → OperandsSound ctx.source.module es) :
    Yields sound ctx (expressions ctx es) es.length :=
  match es with
  | [] => ⟨fun _ => .pure ()⟩
  | e :: es => by
    refine ⟨fun hw => ?_⟩
    rw [length_cons, Nat.add_comm es.length, ← Nat.add_assoc]
    exact ((Turns.one (yields_expression e) fun h => (hs h).1).walks hw).bind fun _ =>
      (yields_expressions es fun h => (hs h).2).walks hw

theorem yields_receiver (object : Option Expression)
    (hs : sound → ReceiverSound ctx.source.module object) :
    Yields sound ctx (receiver ctx object) object.isSome.toNat :=
  match object with
  | none => ⟨fun _ => .pure ()⟩
  | some e => .one (yields_expression e) hs

theorem yields_load (target : Target)
    (hs : sound → target.Sound ctx.source.module ∧ target.hasValue = true) :
    Yields sound ctx (load ctx target) 1 :=
  match target with
  | .variable index => yields_loadLocal index
  | .parameter index => yields_loadParameter index
  | .field object f => by
    rw [load]
    exact yields_fieldOp (yields_receiver object fun h => (hs h).1) ⟨rfl, rfl, rfl⟩ ⟨rfl, rfl, rfl⟩
  | .element array arrayType indices => by
    rw [load]
    exact yields_elementOp (.one (yields_expression array) fun h => (hs h).1.1)
      (yields_expressions indices fun h => (hs h).1.2) fun isElement =>
        acts_loadElement isElement fun h => (hs h).2
  | .indirect address pointee => by
    rw [load]
    exact (Turns.one (yields_expression address) fun h => (hs h).1).bind
      (acts_typedOp pointee does_loadIndirectOp? (by decide) (by decide)).level

theorem yields_addressOf (target : Target) (hs : sound → target.Sound ctx.source.module) :
    Yields sound ctx (addressOf ctx target) 1 :=
  match target with
  | .variable index => by
    rw [addressOf]
    exact .check runs_localSlot fun _ _ => (acts_slotOp (by simp) (by decide) (by decide)).raise
  | .parameter index => by
    rw [addressOf]
    exact .check runs_parameterSlot fun _ _ => (acts_slotOp (by simp) (by decide) (by decide)).raise
  | .field object f => by
    rw [addressOf]
    exact yields_fieldOp (yields_receiver object hs) ⟨rfl, rfl, rfl⟩ ⟨rfl, rfl, rfl⟩
  | .element array arrayType indices => by
    rw [addressOf]
    exact yields_elementOp (.one (yields_expression array) fun h => (hs h).1)
      (yields_expressions indices fun h => (hs h).2) acts_elementAddress
  | .indirect address _ => by
    rw [addressOf]
    exact .one (yields_expression address) hs

theorem walks_condition {target : Label} {form : BranchForm} {holds : Bool} (test : Condition)
    (hs : sound → test.Sound ctx.source.module) {s : Scene} {k : Nat} {N : List Event}
    (hw : Zone.Writable s.zones) (reaches : ∀ K, N ⊆ K → Reaches sound ctx K s false k target) :
    Walks sound ctx (s.level k) N (condition ctx target form holds test) fun _ => s.level k :=
  match test with
  | .isTrue e | .isFalse e => by
    rw [condition]
    refine ((Turns.one (yields_expression e) hs).walks hw).bind fun _ => ?_
    cases holds <;> exact walks_lower_branch _ rfl rfl hw reaches
  | .compare comparison left right unsigned => by
    rw [condition]
    exact ((Turns.one (yields_expression left) fun h => (hs h).1).walks hw).bind fun _ =>
      ((Turns.one (yields_expression right) fun h => (hs h).2).walks hw).bind fun _ =>
        walks_lower_branch _ (Branch.transfers_compare ..) rfl hw reaches

end

end

end Compile
end Cil
