import Cil.Proofs.Marks
import Cil.Proofs.ReferenceRequests

/-!
What compilation is made of. The actions of expressions and statements change the draft, ask for
references, or refuse the body; nothing else reaches the session. What they record on their way are the
marks of what they compile.
-/

namespace Cil

/-- The changes that compilation makes to a draft, with what they record. -/
inductive Draft.Change (d : Draft) : List Mark → Draft → Prop
  | heights (height maxHeight leftBehind : Nat) :
      Change d [] { d with height, maxHeight, leftBehind }
  | instruction (i : Instruction) : Change d [] (d.push i)
  | label : Change d [] { d with internalLabels := d.internalLabels + 1 }
  | place (l : Label) : Change d [] (d.place l)
  | clause (c : DraftClause) : Change d [] { d with clauses := d.clauses.push c }
  | opened : Change d [.scope .opened] { d with scopes := d.scopes.push (.opened d.code.stop) }
  | named (name : String) (slot : Nat) (signature : Bytes) :
      Change d [.scope (.named name slot)]
        { d with scopes := d.scopes.push (.named name slot signature) }
  | closed : Change d [.scope .closed] { d with scopes := d.scopes.push (.closed d.code.stop) }
  | point (span : SourceSpan) : Change d [.point span] (d.addPoint span)

namespace Compile

open Mark (values values_append)
open Expression (parts listParts objectParts targetParts testParts)

/-- The actions that compile a body, with the marks that they come to. Without symbols, scopes and points
are passed by. -/
inductive Composed (ctx : BodyContext) : List Mark → {α : Type} → Compile α → Prop
  | pure {α : Type} (a : α) : Composed ctx [] (Pure.pure a : Compile α)
  | bind {α β : Type} {xs ys : List Mark} {c : Compile α} {f : α → Compile β} (hc : Composed ctx xs c)
      (hf : ∀ a, Composed ctx ys (f a)) : Composed ctx (xs ++ ys) (c >>= f)
  | get : Composed ctx [] (MonadState.get : Compile Draft)
  | modify {xs : List Mark} (f : Draft → Draft) (h : ∀ d : Draft, d.Change xs (f d)) :
      Composed ctx xs (modify f : Compile Unit)
  | modifyGet {α : Type} {xs : List Mark} (f : Draft → α × Draft)
    (h : ∀ d : Draft, d.Change xs (f d).2) :
      Composed ctx xs (modifyGet f : Compile α)
  | emit {α : Type} {c : Emit α} (h : c.Asks ctx.source) : Composed ctx [] (emit c)
  | fault {α : Type} {xs : List Mark} (ctx' : BodyContext) (cause : BodyFault) :
      Composed ctx xs (fault ctx' cause : Compile α)
  | passed {xs : List Mark} (h : ctx.keepsSymbols = false) (symbols : xs.all Mark.isSymbol = true) :
      Composed ctx xs (Pure.pure () : Compile Unit)
  | value {xs : List Mark} {e : Expression} (h : Composed ctx xs (expression ctx e)) :
      Composed ctx (.value e :: xs) (expression ctx e)
  | fork {xs : List Mark} {frame : Frame} {f : Fork}
      (h : Composed ctx xs (statement ctx frame (.branch (some f.test) f.target f.form))) :
      Composed ctx (.fork f :: xs) (statement ctx frame (.branch (some f.test) f.target f.form))

variable {ctx : BodyContext} {α β : Type} {xs : List Mark} {f : α → Compile β}

attribute [simp] Composed.pure Composed.get Composed.fault Emit.Asks.typeToken Emit.Asks.methodToken
  Emit.Asks.fieldToken Emit.Asks.arrayMethod Emit.Asks.methodBlob Emit.Asks.standAloneSig
  Emit.Asks.userString Emit.Asks.isValueType Emit.Asks.ofEncoding

namespace Composed

variable {c : Compile α}

@[simp] theorem refused (ctx' : BodyContext) (cause : BodyFault) :
    (Compile.fault ctx' cause >>= f).Composed ctx xs :=
  fault ctx' cause

theorem trail (hc : c.Composed ctx xs) (hf : ∀ a, (f a).Composed ctx []) :
    (c >>= f).Composed ctx xs := by
  simpa using hc.bind hf

@[simp] theorem bind_nil (hc : c.Composed ctx []) (hf : ∀ a, (f a).Composed ctx []) :
    (c >>= f).Composed ctx [] :=
  hc.bind hf

@[simp] theorem map {g : α → β} (hc : c.Composed ctx []) : (g <$> c).Composed ctx [] := by
  rw [← bind_pure_comp]
  exact hc.bind fun _ => .pure _

@[simp] theorem ite {p : Prop} [Decidable p] {c' : Compile α} (h : c.Composed ctx xs)
    (h' : c'.Composed ctx xs) : (if p then c else c').Composed ctx xs := by
  split
  · exact h
  · exact h'

@[simp] theorem asks {c : Emit α} (h : c.Asks ctx.source) : (Compile.emit c).Composed ctx [] :=
  emit h

@[simp] theorem forM {l : List α} {f : α → Compile Unit} (h : ∀ a, (f a).Composed ctx []) :
    Composed ctx [] (ForM.forM l f) := by
  induction l with
  | nil => exact .pure ()
  | cons a l ih => exact (h a).bind fun _ => ih

end Composed

@[simp] theorem composed_stop : stop.Composed ctx [] := by simp [stop]

@[simp] theorem composed_height : height.Composed ctx [] := by simp [height]

@[simp] theorem composed_fallsThrough : fallsThrough.Composed ctx [] := by simp [fallsThrough]

@[simp] theorem composed_raise (count : Nat) : (raise count).Composed ctx [] :=
  .modify _ fun _ => .heights _ _ _

@[simp] theorem composed_lower (count : Nat) : (lower count).Composed ctx [] :=
  .modify _ fun _ => .heights _ _ _

@[simp] theorem composed_setHeight (height : Nat) : (setHeight height).Composed ctx [] :=
  .modify _ fun _ => .heights _ _ _

@[simp] theorem composed_leaveBehind : leaveBehind.Composed ctx [] :=
  .modify _ fun _ => .heights _ _ _

@[simp] theorem composed_instruction (i : Instruction) : (instruction i).Composed ctx [] :=
  .modify _ fun _ => .instruction _

@[simp] theorem composed_opWith (o : Opcode) (operand : Bytes) : (opWith o operand).Composed ctx [] :=
  composed_instruction _

@[simp] theorem composed_op (o : Opcode) : (op o).Composed ctx [] := composed_instruction _

@[simp] theorem composed_newLabel : newLabel.Composed ctx [] := .modifyGet _ fun _ => .label

@[simp] theorem composed_place (l : Label) : (place l).Composed ctx [] := .modify _ fun _ => .place _

@[simp] theorem composed_leave (target : Label) (form : BranchForm) :
    (leave target form).Composed ctx [] := by
  simp [leave, branch]

@[simp] theorem composed_encodeToken (token : Token) : (encodeToken token).Composed ctx [] := by
  simp [encodeToken]

@[simp] theorem composed_opToken (o : Opcode) (token : Token) : (opToken o token).Composed ctx [] := by
  simp [opToken]

@[simp] theorem composed_slotOp (slot : Nat) (first : Option Opcode) (short long : Opcode) :
    (slotOp slot first short long).Composed ctx [] := by
  unfold slotOp
  split <;> simp

@[simp] theorem composed_loadInt32 (v : Int32) : (loadInt32 v).Composed ctx [] := by
  simp [loadInt32]

@[simp] theorem composed_literal (v : Literal) : (literal v).Composed ctx [] := by
  cases v <;> simp [literal]

@[simp] theorem composed_compareValues (comparison : Comparison) (unsigned : Bool) :
    (compareValues comparison unsigned).Composed ctx [] := by
  unfold compareValues
  refine (composed_op _).bind fun _ => (composed_lower 2).bind fun _ =>
    (composed_raise 1).bind fun _ => ?_
  split <;> simp

@[simp] theorem composed_finishCall (operands : Nat) (s : MethodSignature) :
    (finishCall operands s).Composed ctx [] := by
  simp [finishCall]

@[simp] theorem composed_functionPointerOp (token : Token) (hasReceiver : Bool) :
    (functionPointerOp token hasReceiver).Composed ctx [] := by
  simp [functionPointerOp]

@[simp] theorem composed_popValues (count : Nat) : (popValues count).Composed ctx [] := by
  induction count with
  | zero => exact .pure _
  | succ count ih => simp [popValues, ih]

@[simp] theorem composed_leaveAtEnd (target : Label) : (leaveAtEnd target).Composed ctx [] := by
  simp [leaveAtEnd]

@[simp] theorem composed_addClause (guard : Guard) (tryStart tryStop handlerStart : Nat) :
    (addClause guard tryStart tryStop handlerStart).Composed ctx [] :=
  composed_stop.bind fun _ => .modify _ fun _ => .clause _

variable (ctx : BodyContext)

@[simp] theorem composed_opType (o : Opcode) (t : TypeSig) : (opType ctx o t).Composed ctx [] := by
  simp [opType]

@[simp] theorem composed_placeBlock (id : BlockId) : (placeBlock ctx id).Composed ctx [] := by
  simp [placeBlock]

@[simp] theorem composed_localSlot (index : Nat) : (localSlot ctx index).Composed ctx [] := by
  simp [localSlot]

@[simp] theorem composed_parameterSlot (index : Nat) : (parameterSlot ctx index).Composed ctx [] := by
  simp [parameterSlot]

@[simp] theorem composed_loadLocal (index : Nat) : (loadLocal ctx index).Composed ctx [] := by
  simp [loadLocal]

@[simp] theorem composed_storeLocal (index : Nat) : (storeLocal ctx index).Composed ctx [] := by
  simp [storeLocal]

@[simp] theorem composed_loadParameter (index : Nat) : (loadParameter ctx index).Composed ctx [] := by
  simp [loadParameter]

@[simp] theorem composed_isReference (t : TypeSig) : (isReference ctx t).Composed ctx [] := by
  unfold isReference
  split <;> simp

@[simp] theorem composed_typedOp (own? : TypeSig → Option Opcode) (reference general : Opcode)
    (t : TypeSig) : (typedOp ctx own? reference general t).Composed ctx [] := by
  unfold typedOp
  split <;> simp

@[simp] theorem composed_elementType (arrayType : TypeSig) (indices : Nat) :
    (elementType ctx arrayType indices).Composed ctx [] := by
  unfold elementType
  split
  · simp
  · split <;> simp

@[simp] theorem composed_callArray (arrayType : TypeSig) (name : String) (returnType : TypeSig)
    (rank : Nat) (value : List TypeSig) :
    (callArray ctx arrayType name returnType rank value).Composed ctx [] := by
  simp [callArray]

@[simp] theorem composed_fieldAccess (r : FieldRef) (hasReceiver : Bool) :
    (fieldAccess ctx r hasReceiver).Composed ctx [] := by
  refine (Composed.emit (.ofExcept (fails_fieldDef .references ..))).bind fun f =>
    (Composed.emit (.fieldToken r)).bind fun token => ?_
  split <;> simp

@[simp] theorem composed_calledSignature (r : MethodRef) (hasReceiver : Bool) (arguments : Nat) :
    (calledSignature ctx r hasReceiver arguments).Composed ctx [] := by
  refine (Composed.emit (.ofExcept (fails_methodDef .references ..))).bind fun m => ?_
  refine .ite (.refused ctx _) ?_
  split <;> simp

theorem composed_callWith (isVirtual isTail : Bool) (constrained : Option TypeSig) (token : Token) :
    Composed ctx [] (do
      if let some t := constrained then opType ctx .constrained t
      if isTail then op .tail
      opToken (if isVirtual || constrained.isSome then .callvirt else .call) token) := by
  cases constrained with
  | none => simp
  | some t => exact (composed_opType ctx _ t).bind fun _ => by simp

@[simp] theorem composed_callOp (r : MethodRef) (isVirtual isTail : Bool)
    (constrained : Option TypeSig) : (callOp ctx r isVirtual isTail constrained).Composed ctx [] :=
  (Composed.emit (.methodToken r)).bind fun _ => composed_callWith ..

@[simp] theorem composed_checkConstructor (r : MethodRef) (arguments : Nat) :
    (checkConstructor ctx r arguments).Composed ctx [] :=
  (Composed.emit (.ofExcept (fails_methodDef .references ..))).bind fun m => by simp

@[simp] theorem composed_checkArrayCreation (arrayType : TypeSig) (sizes : Nat) :
    (checkArrayCreation ctx arrayType sizes).Composed ctx [] := by
  unfold checkArrayCreation
  split <;> simp

@[simp] theorem composed_createArray (arrayType : TypeSig) (sizes : Nat) :
    (createArray ctx arrayType sizes).Composed ctx [] := by
  unfold createArray
  split
  · simp
  · exact (Composed.emit (.arrayMethod ..)).bind fun _ => by simp

@[simp] theorem composed_loadElement (arrayType element : TypeSig) (rank : Option Nat) :
    (loadElement ctx arrayType element rank).Composed ctx [] := by
  cases rank <;> simp [loadElement]

@[simp] theorem composed_storeElement (arrayType element : TypeSig) (rank : Option Nat) :
    (storeElement ctx arrayType element rank).Composed ctx [] := by
  cases rank <;> simp [storeElement]

@[simp] theorem composed_elementAddress (arrayType element : TypeSig) (rank : Option Nat) :
    (elementAddress ctx arrayType element rank).Composed ctx [] := by
  cases rank <;> simp [elementAddress]

@[simp] theorem composed_tokenOf (source : TokenSource) : (tokenOf ctx source).Composed ctx [] := by
  cases source <;> simp [tokenOf]

@[simp] theorem composed_checkTarget (frame : Frame) (target : BlockId) (leaving : Bool) :
    (checkTarget ctx frame target leaving).Composed ctx [] := by
  unfold checkTarget
  split <;> simp

@[simp] theorem composed_enterHandler (into : Option Nat) : (enterHandler ctx into).Composed ctx [] := by
  cases into <;> simp [enterHandler]

mutual

theorem composed_parts : ∀ e : Expression, (expression ctx e).Composed ctx (values e.parts)
  | .literal _ | .variable _ | .parameter _ | .this | .sizeOf _ | .token _ => by
    simp [expression, parts, values]
  | .load target => by
    rw [expression, parts]
    exact composed_load target
  | .addressOf target => by
    rw [expression, parts]
    exact composed_addressOf target
  | .call method object arguments isVirtual isTail constrained => by
    rw [expression, parts, values_append]
    exact (composed_calledSignature ctx ..).bind fun _ => (composed_receiver object).bind fun _ =>
      (composed_expressions arguments).trail fun _ => by simp
  | .callIndirect s function arguments => by
    rw [expression, parts, values_append]
    exact (composed_expressions arguments).bind fun _ => (composed_parts function).value.trail fun _ =>
      (Composed.emit (.methodBlob ..)).bind fun _ => by simp
  | .construct constructor arguments => by
    rw [expression, parts]
    exact (composed_checkConstructor ctx ..).bind fun _ =>
      (composed_expressions arguments).trail fun _ =>
        (Composed.emit (.methodToken _)).bind fun _ => by simp
  | .newArray arrayType sizes => by
    rw [expression, parts]
    exact (composed_checkArrayCreation ctx ..).bind fun _ => (composed_expressions sizes).trail fun _ =>
      composed_createArray ctx ..
  | .arrayLength operand | .unary _ operand | .stackAlloc operand | .convert _ operand _ _
  | .box _ operand | .unbox _ operand _ | .castClass _ operand | .isInstance _ operand => by
    rw [expression, parts]
    exact (composed_parts operand).value.trail fun _ => by simp
  | .binary _ left right _ _ | .compare _ left right _ => by
    rw [expression, parts, values_append]
    exact (composed_parts left).value.bind fun _ => (composed_parts right).value.trail fun _ => by simp
  | .conditional test ifTrue ifFalse => by
    rw [expression, parts, values_append, values_append]
    refine composed_newLabel.bind fun _ => composed_newLabel.bind fun _ =>
      (composed_condition _ _ _ test).bind fun _ => composed_height.bind fun _ =>
        (composed_parts ifTrue).value.bind fun _ => ?_
    exact (composed_instruction _).bind fun _ => (composed_setHeight _).bind fun _ =>
      (composed_place _).bind fun _ => (composed_parts ifFalse).value.trail fun _ => composed_place _
  | .functionPointer method object => by
    rw [expression, parts]
    exact (Composed.emit (.methodToken _)).bind fun _ =>
      (composed_receiver object).trail fun _ => by simp

theorem composed_expressions : ∀ es : List Expression,
    (expressions ctx es).Composed ctx (values (listParts es))
  | [] => by
    rw [expressions, listParts]
    exact .pure ()
  | e :: rest => by
    rw [expressions, listParts, values_append]
    exact (composed_parts e).value.bind fun _ => composed_expressions rest

theorem composed_receiver : ∀ object : Option Expression,
    (receiver ctx object).Composed ctx (values (objectParts object))
  | none => by
    rw [receiver, objectParts]
    exact .pure ()
  | some e => by
    rw [receiver, objectParts]
    exact (composed_parts e).value

theorem composed_load : ∀ target : Target, (load ctx target).Composed ctx (values (targetParts target))
  | .variable _ | .parameter _ => by simp [load, targetParts, values]
  | .field object f => by
    rw [load, targetParts]
    exact (composed_fieldAccess ctx ..).bind fun _ => (composed_receiver object).trail fun _ => by
      split <;> simp
  | .element array arrayType indices => by
    rw [load, targetParts, values_append]
    exact (composed_elementType ctx ..).bind fun _ => (composed_parts array).value.bind fun _ =>
      (composed_expressions indices).trail fun _ => by simp
  | .indirect address pointee => by
    rw [load, targetParts]
    exact (composed_parts address).value.trail fun _ => by simp

theorem composed_addressOf : ∀ target : Target,
    (addressOf ctx target).Composed ctx (values (targetParts target))
  | .variable _ | .parameter _ => by simp [addressOf, targetParts, values]
  | .field object f => by
    rw [addressOf, targetParts]
    exact (composed_fieldAccess ctx ..).bind fun _ => (composed_receiver object).trail fun _ => by
      split <;> simp
  | .element array arrayType indices => by
    rw [addressOf, targetParts, values_append]
    exact (composed_elementType ctx ..).bind fun _ => (composed_parts array).value.bind fun _ =>
      (composed_expressions indices).trail fun _ => by simp
  | .indirect address _ => by
    rw [addressOf, targetParts]
    exact (composed_parts address).value

theorem composed_condition : ∀ (target : Label) (form : BranchForm) (holds : Bool) (c : Condition),
    (condition ctx target form holds c).Composed ctx (values (testParts c))
  | _, _, _, .isTrue e | _, _, _, .isFalse e => by
    rw [condition, testParts]
    exact (composed_parts e).value.trail fun _ => by simp [branch]
  | _, _, _, .compare _ left right _ => by
    rw [condition, testParts, values_append]
    exact (composed_parts left).value.bind fun _ => (composed_parts right).value.trail fun _ => by
      simp [branch]

end

theorem composed_expression (e : Expression) : (expression ctx e).Composed ctx (values e.all) :=
  (composed_parts ctx e).value

theorem composed_store (target : Target) (value : Expression) :
    (store ctx target value).Composed ctx (values (targetParts target ++ value.all)) := by
  rw [values_append]
  cases target with
  | «variable» index =>
    rw [targetParts]
    exact (composed_expression ctx value).trail fun _ => by simp
  | parameter index =>
    rw [targetParts]
    exact (composed_parameterSlot ctx index).bind fun _ =>
      (composed_expression ctx value).trail fun _ => by simp
  | field object f =>
    rw [targetParts]
    exact (composed_fieldAccess ctx ..).bind fun _ => (composed_receiver ctx object).bind fun _ =>
      (composed_expression ctx value).trail fun _ => by simp
  | element array arrayType indices =>
    rw [targetParts, values_append, List.append_assoc]
    exact (composed_elementType ctx ..).bind fun _ => (composed_expression ctx array).bind fun _ =>
      (composed_expressions ctx indices).bind fun _ => (composed_expression ctx value).trail fun _ => by
        simp
  | indirect address pointee =>
    rw [targetParts]
    exact (composed_expression ctx address).bind fun _ =>
      (composed_expression ctx value).trail fun _ => by simp

theorem composed_sequencePoint (span : SourceSpan) :
    (sequencePoint ctx span).Composed ctx [.point span] := by
  unfold sequencePoint
  split
  · exact .modify _ fun _ => .point span
  case isFalse keepsNot => exact .passed (Bool.eq_false_iff.2 keepsNot) rfl

theorem composed_scopeLocal (index : Nat) :
    (scopeLocal ctx index).Composed ctx (Mark.ofLocal ctx.locals index) := by
  unfold scopeLocal localSlot
  split
  · rw [Mark.ofLocal, pure_bind]
    cases found : ctx.locals[index]? with
    | none => exact .pure _
    | some v =>
      rcases v with ⟨type, name, pinned⟩
      cases name with
      | none => exact .pure _
      | some name =>
        exact (Composed.emit (.typeBlob _)).bind fun signature => .modify _ fun _ => .named ..
  · exact .refused ctx _

theorem composed_openScope (locals : List Nat) :
    (openScope ctx locals).Composed ctx (Mark.opening ctx.locals locals) := by
  have named : (locals.forM (scopeLocal ctx)).Composed ctx
      (locals.flatMap (Mark.ofLocal ctx.locals)) := by
    induction locals with
    | nil => exact .pure _
    | cons index rest ih => exact (composed_scopeLocal ctx index).bind fun _ => ih
  -- the place is read where the scope opens, so that two actions make one change
  have opened : Composed ctx [.scope .opened] (stop >>= fun place => scopeEvent (.opened place)) :=
    .modify (fun d => { d with scopes := d.scopes.push (.opened d.code.stop) }) fun _ => .opened
  cases keeps : ctx.keepsSymbols with
  | false =>
    rw [openScope, keeps, Bool.false_and]
    exact .passed keeps (Mark.isSymbol_opening ..)
  | true =>
    rw [openScope, keeps, Mark.opening]
    cases locals.isEmpty with
    | true => exact .pure _
    | false => exact opened.bind fun _ => named

theorem composed_closeScope (locals : List Nat) :
    (closeScope ctx locals).Composed ctx (Mark.closing locals) := by
  have closed : Composed ctx [.scope .closed] (stop >>= fun place => scopeEvent (.closed place)) :=
    .modify (fun d => { d with scopes := d.scopes.push (.closed d.code.stop) }) fun _ => .closed
  rw [closeScope, Mark.closing]
  cases keeps : ctx.keepsSymbols with
  | false =>
    rw [Bool.false_and]
    exact .passed keeps (by cases locals.isEmpty <;> rfl)
  | true =>
    cases locals.isEmpty with
    | true => exact .pure _
    | false => exact closed

theorem composed_returnValue (frame : Frame) (value : Option Expression) :
    (returnValue ctx frame value).Composed ctx (values (objectParts value)) := by
  refine .ite (.refused ctx _) ?_
  split
  · exact (composed_expression ctx _).trail fun _ => by simp
  · exact composed_op _
  · exact .refused ctx _
  · exact .refused ctx _

theorem composed_throwValue (frame : Frame) (value : Option Expression) :
    (throwValue ctx frame value).Composed ctx (values (objectParts value)) := by
  unfold throwValue
  split
  · exact (composed_expression ctx _).trail fun _ => by simp
  · exact .ite (composed_op _) (.fault ctx _)

open Statement (marks listMarks blockMarks handlersMarks handlerMarks cleanupMarks)

mutual

theorem composed_block : ∀ (frame : Frame) (b : Block),
    (block ctx frame b).Composed ctx (blockMarks ctx.locals b)
  | frame, .mk id body locals source => by
    have rest : Composed ctx (Mark.opening ctx.locals locals ++
          (listMarks ctx.locals body ++ Mark.closing locals)) (do
        openScope ctx locals
        statements ctx { frame with region := (ctx.regions.region? id).getD frame.region } body
        leaveBehind
        closeScope ctx locals) :=
      (composed_openScope ctx locals).bind fun _ => (composed_statements _ body).bind fun _ =>
        composed_leaveBehind.bind fun _ => composed_closeScope ctx locals
    rw [block, blockMarks]
    refine (composed_placeBlock ctx id).bind fun _ => ?_
    cases source with
    | none => exact (Composed.pure _).bind fun _ => rest
    | some span => exact (composed_sequencePoint ctx span).bind fun _ => rest

theorem composed_statements : ∀ (frame : Frame) (ss : List Statement),
    (statements ctx frame ss).Composed ctx (listMarks ctx.locals ss)
  | _, [] => by
    rw [statements, listMarks]
    exact .pure _
  | frame, s :: rest => by
    rw [statements, listMarks]
    exact (composed_statement frame s).bind fun _ => composed_statements frame rest

theorem composed_statement : ∀ (frame : Frame) (s : Statement),
    (statement ctx frame s).Composed ctx (marks ctx.locals s)
  | frame, .block b => by
    rw [statement, marks]
    exact composed_block frame b
  | _, .expression e => by
    rw [statement, marks]
    exact composed_height.bind fun _ => (composed_expression ctx e).trail fun _ => by simp
  | _, .assign target value => by
    rw [statement, marks]
    exact composed_store ctx target value
  | frame, .branch none target form => by
    rw [statement, marks]
    exact (composed_checkTarget ctx ..).bind fun _ => composed_instruction _
  | frame, .branch (some test) target form => by
    rw [marks]
    refine .fork (f := ⟨test, target, form⟩) ?_
    rw [statement]
    exact (composed_checkTarget ctx ..).bind fun _ => composed_condition ctx ..
  | frame, .leave target form => by
    rw [statement, marks]
    exact (composed_checkTarget ctx ..).bind fun _ => composed_leave ..
  | frame, .switch value targets => by
    rw [statement, marks]
    exact (Composed.forM fun _ => composed_checkTarget ctx ..).bind fun _ =>
      (composed_expression ctx value).trail fun _ => by simp
  | frame, .exit value => by
    rw [statement, marks]
    exact composed_returnValue ctx frame value
  | frame, .throwing value => by
    rw [statement, marks]
    exact composed_throwValue ctx frame value
  | frame, .guarded body hs clean => by
    have guarded : Composed ctx (blockMarks ctx.locals body ++
          (handlersMarks ctx.locals hs ++ cleanupMarks ctx.locals clean)) (do
        let behind ← newLabel
        let tryStart ← stop
        block ctx frame body
        leaveAtEnd behind
        let tryStop ← stop
        handlers ctx frame behind tryStart tryStop hs
        cleanup ctx frame tryStart clean
        place behind) :=
      composed_newLabel.bind fun _ => composed_stop.bind fun _ =>
        (composed_block frame body).bind fun _ => (composed_leaveAtEnd _).bind fun _ =>
          composed_stop.bind fun _ => (composed_handlers frame _ _ _ hs).bind fun _ =>
            (composed_cleanup frame _ clean).trail fun _ => composed_place _
    rw [statement, marks]
    exact .ite (.refused ctx _) guarded
  | _, .initObject address valueType => by
    rw [statement, marks]
    exact (composed_expression ctx address).trail fun _ => by simp
  | _, .sequencePoint span => by
    rw [statement, marks]
    exact composed_sequencePoint ctx span
  | _, .breakpoint | _, .nop => by
    rw [statement, marks]
    exact composed_op _

theorem composed_handlers : ∀ (frame : Frame) (behind : Label) (tryStart tryStop : Nat)
    (hs : List Handler),
    (handlers ctx frame behind tryStart tryStop hs).Composed ctx (handlersMarks ctx.locals hs)
  | _, _, _, _, [] => by
    rw [handlers, handlersMarks]
    exact .pure _
  | _, _, _, _, h :: rest => by
    rw [handlers, handlersMarks]
    exact (composed_handler _ _ _ _ h).bind fun _ => composed_handlers _ _ _ _ rest

theorem composed_handler : ∀ (frame : Frame) (behind : Label) (tryStart tryStop : Nat) (h : Handler),
    (handler ctx frame behind tryStart tryStop h).Composed ctx (handlerMarks ctx.locals h)
  | _, _, _, _, .catching exceptionType into body => by
    rw [handler, handlerMarks]
    exact (Composed.emit (.typeToken exceptionType)).bind fun _ =>
      (composed_encodeToken _).bind fun _ => composed_stop.bind fun _ =>
        (composed_enterHandler ctx into).bind fun _ => (composed_block _ body).trail fun _ => by simp
  | _, _, _, _, .filtering into filter test body => by
    rw [handler, handlerMarks]
    refine composed_stop.bind fun _ => (composed_enterHandler ctx into).bind fun _ =>
      (composed_block _ filter).bind fun _ => (composed_expression ctx test).bind fun _ => ?_
    exact (composed_op _).bind fun _ => (composed_lower 1).bind fun _ => composed_stop.bind fun _ =>
      (composed_enterHandler ctx into).bind fun _ => (composed_block _ body).trail fun _ => by simp

theorem composed_cleanup : ∀ (frame : Frame) (tryStart : Nat) (c : Cleanup),
    (cleanup ctx frame tryStart c).Composed ctx (cleanupMarks ctx.locals c)
  | _, _, .nothing => by
    rw [cleanup, cleanupMarks]
    exact .pure _
  | _, _, .finallyBlock body | _, _, .faultBlock body => by
    rw [cleanup, cleanupMarks]
    exact composed_stop.bind fun _ => (composed_setHeight 0).bind fun _ =>
      (composed_block _ body).trail fun _ => by simp

end

theorem composed_body (b : Body) : (body ctx b).Composed ctx (blockMarks ctx.locals b.root) :=
  (composed_block ctx _ b.root).trail fun _ => composed_fallsThrough.bind fun falls => by simp

end Compile
end Cil
