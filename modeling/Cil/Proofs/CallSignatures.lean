import Cil.Proofs.AttributeOwners
import Cil.Proofs.ExpressionMeaning

/-!
What calls pass and what is declared of them. The token of a call names a row, and the signature of that
row counts parameters. The count is read here as it stands in the finished tables, whichever table the
row is of.
-/

namespace Cil

open List Option

variable {sig : MethodSignature}

def parameterCount? : Bytes → Option Nat
  | [] => none
  | convention :: rest => do
    let (_, rest) ← if convention &&& Convention.generic != 0 then Compressed.readUnsigned rest
      else some (0, rest)
    let (count, _) ← Compressed.readUnsigned rest
    return count

/-- Whether a type is void, behind its modifiers and pins. -/
def startsVoid : (fuel : Nat) → Bytes → Bool
  | 0, _ | _, [] => false
  | fuel + 1, tag :: rest =>
    if tag = ElementType.requiredModifier ∨ tag = ElementType.optionalModifier then
      (Compressed.readUnsigned rest).any fun (_, rest) => startsVoid fuel rest
    else if tag = ElementType.pinned then startsVoid fuel rest
    else tag = ElementType.void

/-- What a signature takes and returns. -/
def callee? : Bytes → Option Callee
  | [] => none
  | convention :: rest => do
    let (_, rest) ← if convention &&& Convention.generic != 0 then Compressed.readUnsigned rest
      else some (0, rest)
    let (parameters, rest) ← Compressed.readUnsigned rest
    return {
      parameters
      isInstance := convention &&& Convention.hasThis != 0
      returnsVoid := startsVoid rest.length rest }

theorem parameterCount?_of_callee? {blob : Bytes} {c : Callee} (h : callee? blob = some c) :
    parameterCount? blob = some c.parameters := by
  cases blob with
  | nil => cases h
  | cons convention rest =>
    rw [callee?] at h
    rw [parameterCount?]
    split at h
    all_goals
      obtain ⟨first, arity, h⟩ := Option.bind_eq_some_iff.1 h
      obtain ⟨second, count, h⟩ := Option.bind_eq_some_iff.1 h
      cases h
      simp_all

def Tables.declared? (ts : Tables) : Token → Option BlobIndex
  | ⟨.table .methodDef, n + 1⟩ => ts.methodDef[n]?.map (·.signature)
  | ⟨.table .memberRef, n + 1⟩ => ts.memberRef[n]?.map (·.signature)
  | ⟨.table .standAloneSig, n + 1⟩ => ts.standAloneSig[n]?.map (·.signature)
  | _ => none

/-- The signature of a row that can be called. A generic method has that of its definition. -/
def Tables.signature? (ts : Tables) : Token → Option BlobIndex
  | ⟨.table .methodSpec, n + 1⟩ => ts.methodSpec[n]?.bind fun row => ts.declared? row.method.token
  | token => ts.declared? token

def Tables.parameterCount? (ts : Tables) (blobs : BlobHeap) (token : Token) : Option Nat := do
  let signature ← ts.signature? token
  let blob ← blobs.sized? signature.offset
  Cil.parameterCount? blob

def Tables.callee? (ts : Tables) (blobs : BlobHeap) (token : Token) : Option Callee := do
  let signature ← ts.signature? token
  let blob ← blobs.sized? signature.offset
  Cil.callee? blob

theorem Tables.parameterCount?_of_callee? {ts : Tables} {blobs : BlobHeap} {token : Token} {c : Callee}
    (h : ts.callee? blobs token = some c) : ts.parameterCount? blobs token = some c.parameters := by
  obtain ⟨signature, declared, h⟩ := bind_eq_some_iff.1 h
  obtain ⟨blob, sized, told⟩ := bind_eq_some_iff.1 h
  exact bind_eq_some_iff.2 ⟨signature, declared, bind_eq_some_iff.2
    ⟨blob, sized, Cil.parameterCount?_of_callee? told⟩⟩

theorem Tables.signature?_of_declared {ts : Tables} {token : Token} {i : BlobIndex}
    (h : ts.declared? token = some i) : ts.signature? token = some i := by
  unfold signature?
  split
  · cases h
  · exact h

section

variable {src : Source} {s s' : Session} {blob : Bytes} {arity : Nat} {h : BlobHeap} {offset : Nat}

theorem length_resolveTypes {done : Array ResolvedType} {ts : List TypeSig} {rs : List ResolvedType}
    (run : (resolveTypes src done ts).Runs s rs s') : rs.length = done.size + ts.length := by
  induction ts generalizing done s with
  | nil =>
    rw [resolveTypes] at run
    obtain ⟨rfl, _⟩ := Emit.runs_pure.1 run
    simp
  | cons t ts ih =>
    rw [resolveTypes] at run
    obtain ⟨r, s₁, _, rest⟩ := Emit.runs_bind.1 run
    rw [ih rest, Array.size_push, length_cons, Nat.add_right_comm, Nat.add_assoc]

theorem callee?_of_join {convention : UInt8} {count : Nat} {more : List Field}
    (small : count ≤ Compressed.limit)
    (joined : Field.join (ResolvedType.conventionFields convention arity count ++ more) = .ok blob) :
    ∃ rest, Field.join more = .ok rest ∧
      callee? blob = some ⟨count, convention &&& Convention.hasThis != 0, startsVoid rest.length rest⟩ := by
  have same : count % 0x100000000 = count := Nat.mod_eq_of_lt (by rw [Compressed.limit] at small; omega)
  rw [ResolvedType.conventionFields, Compressed.count, same] at joined
  obtain ⟨first, rest, here, behind, rfl⟩ := Field.join_cons_eq_ok.1 joined
  cases here
  clear joined
  rw [singleton_append, callee?]
  split at behind
  case isTrue generic =>
    obtain ⟨parameters, rest, encoded, last, rfl⟩ := Field.join_cons_eq_ok.1 behind
    obtain ⟨counted, rest, encoded', types, rfl⟩ := Field.join_cons_eq_ok.1 last
    refine ⟨rest, types, ?_⟩
    simp [generic, Compressed.readUnsigned_unsigned encoded, Compressed.readUnsigned_unsigned encoded']
  case isFalse plain =>
    obtain ⟨counted, rest, encoded, types, rfl⟩ := Field.join_cons_eq_ok.1 behind
    refine ⟨rest, types, ?_⟩
    simp [plain, Compressed.readUnsigned_unsigned encoded]

theorem hasThis_conventionByte (isInstance explicitThis : Bool)
    (convention : CallingConvention) (arity : Nat) :
    (conventionByte isInstance explicitThis convention arity &&& Convention.hasThis != 0) = isInstance := by
  rw [conventionByte]
  cases isInstance <;> cases explicitThis <;> cases convention <;> cases arity <;> simp <;> decide

/-- A type that is not primitive starts with a byte that neither is void nor stands in front of a type. -/
theorem exists_tag {t : TypeSig} {r : ResolvedType} (run : (resolveType src t).Runs s r s')
    (unmodified : ∀ modifier required inner, t ≠ .modified modifier required inner)
    (unpinned : ∀ inner, t ≠ .pinned inner) (other : t.primitive? = none) :
    ∃ tag more, r.fields = .byte tag :: more ∧ tag ∉ [ElementType.void, ElementType.requiredModifier,
      ElementType.optionalModifier, ElementType.pinned] := by
  cases t with
  | primitive => cases other
  | modified => exact absurd rfl (unmodified _ _ _)
  | pinned => exact absurd rfl (unpinned _)
  | named id =>
    simp only [resolveType, Emit.runs_bind] at run
    obtain ⟨row, _, _, isValue, _, _, last⟩ := run
    split at last <;> obtain ⟨rfl, _⟩ := Emit.runs_pure.1 last <;> exact ⟨_, _, rfl, by decide⟩
  | pointer pointee =>
    cases pointee with
    | none =>
      rw [resolveType, Emit.runs_pure] at run
      obtain ⟨rfl, _⟩ := run
      exact ⟨_, _, rfl, by decide⟩
    | some pointee =>
      simp only [resolveType, Emit.runs_bind, Emit.runs_pure] at run
      obtain ⟨_, _, _, rfl, _⟩ := run
      exact ⟨_, _, rfl, by decide⟩
  | vector | reference | typeParameter | methodParameter =>
    simp only [resolveType, Emit.runs_bind, Emit.runs_pure] at run
    obtain ⟨_, _, _, rfl, _⟩ := run
    exact ⟨_, _, rfl, by decide⟩
  | array | functionPointer =>
    simp only [resolveType, Emit.runs_bind, Emit.runs_pure] at run
    obtain ⟨_, _, _, _, _, _, _, _, _, rfl, _⟩ := run
    exact ⟨_, _, rfl, by decide⟩
  | generic =>
    simp only [resolveType, Emit.runs_bind, Emit.runs_pure] at run
    obtain ⟨_, _, _, _, _, _, _, _, _, _, _, _, rfl, _⟩ := run
    exact ⟨_, _, rfl, by decide⟩

theorem startsVoid_resolveType {t : TypeSig} {r : ResolvedType} {fuel : Nat} {more : List Field}
    (run : (resolveType src t).Runs s r s') (joined : Field.join (r.fields ++ more) = .ok blob)
    (enough : blob.length ≤ fuel) :
    startsVoid fuel blob = (t.unmodified.primitive? == some .void) := by
  induction t using TypeSig.unmodified.induct generalizing s s' r blob fuel with
  | case1 modifier required inner ih =>
    simp only [resolveType, Emit.runs_bind, Emit.runs_pure] at run
    obtain ⟨row, _, _, inside, _, resolved, rfl, _⟩ := run
    obtain ⟨_, _, here, last, rfl⟩ := Field.join_cons_eq_ok.1 joined
    obtain ⟨index, rest, encoded, types, rfl⟩ := Field.join_cons_eq_ok.1 last
    cases here
    obtain ⟨code, _, compressed⟩ := Except.bind_eq_ok.1 encoded
    cases fuel with
    | zero => simp at enough
    | succ fuel =>
      have enough : rest.length ≤ fuel := by
        simp at enough
        omega
      rw [singleton_append, startsVoid, if_pos (by cases required <;> decide),
        Compressed.readUnsigned_unsigned compressed]
      exact ih resolved types enough
  | case2 inner ih =>
    simp only [resolveType, Emit.runs_bind, Emit.runs_pure] at run
    obtain ⟨inside, _, resolved, rfl, _⟩ := run
    obtain ⟨_, rest, here, types, rfl⟩ := Field.join_cons_eq_ok.1 joined
    cases here
    cases fuel with
    | zero => simp at enough
    | succ fuel =>
      rw [singleton_append, startsVoid, if_neg (by decide), if_pos rfl]
      exact ih resolved types (by simpa using enough)
  | case3 t unmodified unpinned =>
    rw [TypeSig.unmodified.eq_3 t unmodified unpinned]
    cases primitive : t.primitive? with
    | some p =>
      cases t with
      | primitive q =>
        cases primitive
        rw [resolveType] at run
        obtain ⟨rfl, _⟩ := Emit.runs_pure.1 run
        obtain ⟨_, rest, here, _, rfl⟩ := Field.join_cons_eq_ok.1 joined
        cases here
        cases fuel with
        | zero => simp at enough
        | succ fuel => cases p <;> rfl
      | _ => cases primitive
    | none =>
      obtain ⟨tag, behind, fields, other⟩ := exists_tag run unmodified unpinned primitive
      rw [fields, cons_append] at joined
      obtain ⟨_, rest, here, _, rfl⟩ := Field.join_cons_eq_ok.1 joined
      cases here
      cases fuel with
      | zero => simp at enough
      | succ fuel =>
        simp only [mem_cons, not_mem_nil, or_false, not_or] at other
        simp [startsVoid, other]

/-- The signature of a method tells what it takes and returns, with the types that a call adds. -/
theorem callee?_methodBlob {varArgs : List TypeSig}
    (run : (methodBlob src sig arity varArgs).Runs s blob s') :
    callee? blob = some (.ofSignature sig varArgs.length) := by
  obtain ⟨resolved, s₁, resolving, encoding⟩ := Emit.runs_bind.1 run
  obtain ⟨joined, _⟩ := Emit.runs_ofEncoding.1 encoding
  obtain ⟨_, _, checked, resolving⟩ := Emit.runs_bind.1 resolving
  have small : sig.parameters.length + varArgs.length ≤ Compressed.limit := by
    rw [checkCompressible] at checked
    split at checked
    · assumption
    · simp at checked
  simp only [Emit.runs_bind, Emit.runs_pure] at resolving
  obtain ⟨_, _, _, _, _, returned, parameters, _, own, others, _, added, rfl, _⟩ := resolving
  have counts := congrArg₂ (· + ·) (length_resolveTypes own) (length_resolveTypes added)
  simp only [Array.size_empty, Nat.zero_add] at counts
  rw [ResolvedMethod.fields, append_assoc, append_assoc] at joined
  rw [← counts] at small
  obtain ⟨rest, types, told⟩ := callee?_of_join small joined
  rw [told, counts, hasThis_conventionByte, startsVoid_resolveType returned types (Nat.le_refl _)]
  rfl

theorem BlobHeap.sized?_of_has (has : h.Has encode offset blob) : h.sized? offset = some blob := by
  obtain ⟨encoding, encoded, stands⟩ := has
  obtain ⟨length, sized, rfl⟩ := encode_eq_ok encoded
  refine Heap.sized?_of_prefix sized ?_ stands
  by_contra outside
  have read := Compressed.readUnsigned_unsigned sized []
  have empty : h.bytes.toList.drop offset = [] := by
    simpa [Heap.size] using outside
  rw [empty, prefix_nil, append_eq_nil_iff] at stands
  rw [stands.1] at read
  cases read

theorem BlobHeap.sized?_of_read (read : h.read offset = .ok blob) (full : blob ≠ []) :
    h.sized? offset = some blob := by
  rw [BlobHeap.read] at read
  split at read
  · exact absurd (Except.ok.inj read).symm full
  · split at read <;> cases read
    assumption

theorem isDefined_of_memberParent {parent : Option TypeSig} {owner : TypeId}
    (run : (memberParent src parent owner).Runs s none s') :
    ∃ t, src.module.type? owner = some t ∧ t.isDefined = true := by
  unfold memberParent at run
  dsimp only at run
  split at run
  · obtain ⟨_, _, _, last⟩ := Emit.runs_bind.1 run
    cases (Emit.runs_pure.1 last).1
  · obtain ⟨t, _, known, rest⟩ := Emit.runs_bind.1 run
    obtain ⟨known, rfl⟩ := Emit.runs_ofExcept.1 known
    split at rest
    case isTrue isDefined =>
      rw [Module.typeInfo] at known
      split at known <;> cases known
      exact ⟨t, by assumption, isDefined⟩
    case isFalse =>
      obtain ⟨_, _, _, last⟩ := Emit.runs_bind.1 rest
      cases (Emit.runs_pure.1 last).1

/-- What is known of a session in the end: its tables and how their rows are numbered. -/
structure Session.Finished (src : Source) (s : Session) : Prop extends s.Records src where
  order : Numbering.Lists src.module src.numbering.order
  placed : ∃ ts, src.definitions = ({} : Numbering.Counters).place ts
  assigned : List.Forall₂ (Numbering.Assigned src.module src.numbering.rows) src.numbering.order
    src.definitions

/-- What the signature at an index takes and returns. -/
def Session.Signs (s : Session) (i : BlobIndex) (c : Callee) : Prop :=
  (s.blobs.sized? i.offset).bind callee? = some c

theorem Session.signs_of_read {i : BlobIndex} {c : Callee} (read : s.blobs.read i.offset = .ok blob)
    (told : callee? blob = some c) : s.Signs i c := by
  have full : blob ≠ [] := by
    rintro rfl
    cases told
  rw [Signs, BlobHeap.sized?_of_read read full, bind_some, told]

/-- The row of a member, or one that stands alone, has the signature that it was asked for. -/
theorem Session.signs_of_describes {key : RowKey} {token : Token} {c : Callee}
    (describes : key.Describes src s token)
    (signed : (∃ parent name, key = .member parent name blob) ∨ key = .standAlone blob)
    (told : callee? blob = some c) : ∃ i, s.tables.declared? token = some i ∧ s.Signs i c := by
  rcases signed with ⟨parent, name, rfl⟩ | rfl
  · obtain ⟨i, row, rfl, there, _, _, read⟩ := describes
    exact ⟨_, congrArg (Option.map Row.MemberRef.signature) there, signs_of_read read told⟩
  · obtain ⟨i, row, rfl, there, read⟩ := describes
    exact ⟨_, congrArg (Option.map Row.StandAloneSig.signature) there, signs_of_read read told⟩

theorem Session.callee?_of_declared {token : Token} {i : BlobIndex} {c : Callee}
    (declared : s.tables.declared? token = some i) (signs : s.Signs i c) :
    s.tables.callee? s.blobs token = some c :=
  bind_eq_some_iff.2 ⟨i, Tables.signature?_of_declared declared, signs⟩

namespace Session.Finished

variable (finished : s.Finished src)

include finished

theorem signs_of_mem {d : Definition} (hd : d ∈ src.definitions) {x : Method × Nat}
    (hx : x ∈ d.methods) :
    ∃ i, s.tables.declared? (.row .methodDef x.2) = some i ∧ s.Signs i (.ofSignature x.1.signature 0) := by
  obtain ⟨ts, placed⟩ := finished.placed
  obtain ⟨i, row, same, there, _, described⟩ := holdsAt_of_zipIdx (t := .methodDef)
    (finished.methods placed) (Source.mem_zipIdx placed (·.method) (·.firstMethod) ⟨d, hd, hx⟩)
  obtain ⟨blob, ⟨_, _, signed⟩, has⟩ := described.signature
  refine ⟨row.signature, same ▸ congrArg (Option.map Row.MethodDef.signature) there, ?_⟩
  rw [Signs, BlobHeap.sized?_of_has has, bind_some, callee?_methodBlob signed]
  rfl

variable {r : MethodRef} {m : Method} (found : src.module.methodDef r.method = .ok m) {key : RowKey}
  {token : Token}

include found

theorem mem_methods {t : TypeInfo} (known : src.module.type? r.method.parent = some t)
    (isDefined : t.isDefined = true) {row : Nat}
    (numbered : src.numbering.methodRow r.method = .ok row) :
    ∃ d ∈ src.definitions, (m, row) ∈ d.methods := by
  obtain ⟨d, hd, info, rows⟩ := exists_of_forall₂ finished.assigned.flip
    (finished.order.mem_iff.2 ⟨t, known, isDefined⟩)
  refine ⟨d, hd, mk_mem_zipIdx_iff_le_and_getElem?_sub.2 ?_⟩
  have own : d.info.methods[r.method.index]? = some m := by
    simp only [Module.methodDef, Module.typeInfo, info, bind, Except.bind] at found
    split at found <;> cases found
    assumption
  have place : row = d.rows.firstMethod + r.method.index := by
    simp only [Numbering.methodRow, Numbering.methodRow?, Numbering.rows?, rows, bind_some] at numbered
    split at numbered <;> cases numbered
    rename_i known
    split at known <;> cases known
    rfl
  rw [place, Nat.add_sub_cancel_left, Array.getElem?_toList]
  exact ⟨Nat.le_add_right .., own⟩

/-- The row that stands for a method has the signature of the method, with the types that a call adds. -/
theorem declared_of_methodKey (keyed : (methodKey src r).Runs s key s')
    (stands : s.StandsAt key token) :
    ∃ i, s.tables.declared? token = some i ∧
      s.Signs i (.ofSignature m.signature r.varArgTypes.length) := by
  have describes := stands.describes finished.catalogued
  have member {t t' : Session} {parent : CodedIndex .memberRefParent} {name : String}
      (run : (methodBlob src m.signature m.genericParameters.length r.varArgTypes >>= fun blob =>
        pure (.member parent name blob)).Runs t key t') :
      ∃ i, s.tables.declared? token = some i ∧
        s.Signs i (.ofSignature m.signature r.varArgTypes.length) := by
    obtain ⟨blob, _, signed, last⟩ := Emit.runs_bind.1 run
    obtain ⟨rfl, _⟩ := Emit.runs_pure.1 last
    exact signs_of_describes describes (.inl ⟨parent, name, rfl⟩) (callee?_methodBlob signed)
  obtain ⟨_, _, got, rest⟩ := Emit.runs_bind.1 keyed
  obtain ⟨same, rfl⟩ := Emit.runs_ofExcept.1 got
  obtain rfl := Except.ok.inj (found.symm.trans same)
  obtain ⟨parent, s₁, parented, rest⟩ := Emit.runs_bind.1 rest
  cases parent with
  | some parent => exact member rest
  | none =>
    obtain ⟨n, _, given, rest⟩ := Emit.runs_bind.1 rest
    obtain ⟨numbered, rfl⟩ := Emit.runs_ofExcept.1 given
    split at rest
    case isFalse => exact member rest
    case isTrue plain =>
      obtain ⟨rfl, _⟩ := Emit.runs_pure.1 rest
      obtain rfl : token = .row .methodDef n := describes
      obtain ⟨t, known, isDefined⟩ := isDefined_of_memberParent parented
      obtain ⟨d, hd, hx⟩ := finished.mem_methods found known isDefined numbered
      rw [isEmpty_iff.1 plain]
      exact finished.signs_of_mem hd hx

/-- The token of a method leads to a signature that says what a call of the method has to pass. -/
theorem callee?_of_methodToken (keyed : (Request.key src (.methodToken r)).Runs s key s)
    (stands : s.StandsAt key token) :
    s.tables.callee? s.blobs token = some (.ofSignature m.signature r.varArgTypes.length) := by
  rw [Request.key] at keyed
  split at keyed
  case isTrue =>
    obtain ⟨i, declared, signs⟩ := finished.declared_of_methodKey found keyed stands
    exact callee?_of_declared declared signs
  case isFalse =>
    obtain ⟨method, s₁, given, rest⟩ := Emit.runs_bind.1 keyed
    obtain ⟨blob, _, instantiated, last⟩ := Emit.runs_bind.1 rest
    obtain ⟨rfl, rfl⟩ := Emit.runs_pure.1 last
    -- Without its type arguments the method has been asked for on the way, and its row is still there.
    have plain : (Request.answer src (.methodToken { r with genericArguments := [] })).Runs _
        method.token s₁ :=
      Emit.runs_bind.2 ⟨method, s₁, given, Emit.runs_pure.2 ⟨rfl, rfl⟩⟩
    obtain ⟨cat₁, _, again⟩ := Request.answer_runs _ finished.catalogued plain
    obtain ⟨_, before, _⟩ := (Emit.Asks.instantiationBlob r.genericArguments).lasts.run cat₁ instantiated
    obtain ⟨_, key, keyed, standing⟩ := again finished.catalogued before
    obtain ⟨i, declared, signs⟩ := finished.declared_of_methodKey found keyed standing
    obtain ⟨place, row, rfl, there, rfl, _⟩ := stands.describes finished.catalogued
    refine bind_eq_some_iff.2 ⟨i, ?_, signs⟩
    exact bind_eq_some_iff.2 ⟨row, there, declared⟩

end Session.Finished

end

/-- A call: the instructions that it may be, what it passes, and what is declared of it. -/
structure Call where
  opcodes : List Opcode
  arguments : Nat
  declared : Nat

/-- The call that an expression is. A constructor gets no arguments for the types that its call adds, and
an indirect call passes any number, whatever its signature says. -/
def Expression.call? : Expression → Option Call
  | .call _ _ arguments _ _ _ => some ⟨[.call, .callvirt], arguments.length, arguments.length⟩
  | .construct r arguments =>
    some ⟨[.newobj], arguments.length, arguments.length + r.varArgTypes.length⟩
  | .callIndirect sig _ arguments => some ⟨[.calli], arguments.length, sig.parameters.length⟩
  | _ => none

namespace Compile

variable {ctx : BodyContext} {σ σ' : State}

variable {s : Session} {r : MethodRef} {arguments : Nat} {token : Token}

/-- The instruction with the token of a call is the last one, if only heights change behind it. -/
theorem last_of_opToken {o : Opcode} {σ₁ : State} (run : (opToken o token).Runs σ () σ₁)
    (same : σ'.draft.code = σ₁.draft.code ∧ σ'.session = σ₁.session) :
    σ.session = σ'.session ∧ ∃ value, token.encode = .ok value ∧
      σ'.draft.code.instructions[σ'.draft.code.stop - 1]? = some (.simple o (.le 4 value)) := by
  simp only [opToken, encodeToken, opWith, instruction, runs_bind, runs_emit, Emit.runs_ofEncoding,
    runs_modify] at run
  obtain ⟨value, _, ⟨_, ⟨encoded, rfl⟩, rfl⟩, rfl⟩ := run
  refine ⟨same.2.symm, value, encoded, ?_⟩
  simp [same.1, Draft.push, Code.push, Code.stop]

theorem same_finishCall {operands : Nat} (run : (finishCall operands sig).Runs σ () σ') :
    σ'.draft.code = σ.draft.code ∧ σ'.session = σ.session := by
  simp [finishCall, lower, raise] at run
  split at run <;> subst run <;> exact ⟨rfl, rfl⟩

theorem last_of_callOp {isVirtual isTail : Bool} {constrained : Option TypeSig}
    (run : Runs (do
      if let some t := constrained then opType ctx .constrained t
      if isTail then op .tail
      opToken (if isVirtual || constrained.isSome then .callvirt else .call) token) σ () σ') :
    ∃ σ₁, ∃ o ∈ [Opcode.call, .callvirt], (opToken o token).Runs σ₁ () σ' := by
  cases constrained <;> cases isTail <;> cases isVirtual <;> grind [runs_bind]

theorem stands_of_emit (request : Request) (cat : σ.session.Catalogued ctx.source)
    (run : (emit (request.answer ctx.source)).Runs σ token σ') (final : s.Catalogued ctx.source)
    (before : σ'.session.Before s) :
    ∃ key, (request.key ctx.source).Runs s key s ∧ s.StandsAt key token := by
  obtain ⟨s₁, answered, rfl⟩ := runs_emit.1 run
  obtain ⟨_, _, again⟩ := Request.answer_runs _ cat answered
  exact (again final before).2

/-- Where a call has been written, its last instruction has a token that leads to what is declared. -/
theorem declares_of_call (finished : s.Finished ctx.source) {e : Expression} {call : Call}
    (is : e.call? = some call) {d d' : Draft} (run : (expression ctx e).Runs ⟨d, s⟩ () ⟨d', s⟩) :
    ∃ o ∈ call.opcodes, ∃ value token, token.encode = .ok value ∧
      d'.code.instructions[d'.code.stop - 1]? = some (.simple o (.le 4 value)) ∧
      s.tables.parameterCount? s.blobs token = some call.declared := by
  have cat := finished.catalogued
  cases e with
  | call r object arguments isVirtual isTail constrained =>
    cases is
    simp only [expression, runs_bind] at run
    obtain ⟨sig, σ₁, signed, _, σ₂, received, _, σ₃, passed, _, σ₄, called, ended⟩ := run
    obtain ⟨token, σ₅, asked, written⟩ := runs_bind.1 called
    obtain ⟨cat₁, _⟩ := (composed_calledSignature ctx ..).lasts cat signed
    obtain ⟨cat₂, _⟩ := (composed_receiver ctx object).lasts cat₁ received
    obtain ⟨cat₃, _⟩ := (composed_expressions ctx arguments).lasts cat₂ passed
    obtain ⟨cat₅, _⟩ := (Composed.emit (.methodToken r)).lasts cat₃ asked
    obtain ⟨_, before, _⟩ := (composed_callWith ctx ..).lasts cat₅ written
    obtain ⟨σ₆, o, one, last⟩ := last_of_callOp written
    have same := same_finishCall ended
    have final : s = σ₄.session := same.2
    obtain ⟨_, value, encoded, there⟩ := last_of_opToken last same
    obtain ⟨_, m, found, rfl, count, _⟩ := runs_calledSignature signed
    obtain ⟨key, keyed, stands⟩ := stands_of_emit (.methodToken r) cat₃ asked cat (final ▸ before)
    refine ⟨o, one, value, token, encoded, there, ?_⟩
    rw [Tables.parameterCount?_of_callee? (finished.callee?_of_methodToken found keyed stands), count]
    rfl
  | construct r arguments =>
    cases is
    simp only [expression, runs_bind, lower, raise, runs_modify, State.mk.injEq] at run
    obtain ⟨_, σ₁, checked, _, σ₂, passed, token, σ₃, asked, _, σ₄, written, _, _, rfl, rfl, same⟩ :=
      run
    obtain ⟨final, value, encoded, there⟩ := last_of_opToken written
      (show (⟨_, s⟩ : State).draft.code = _ ∧ s = _ from ⟨rfl, same.symm⟩)
    obtain ⟨cat₁, _⟩ := (composed_checkConstructor ctx ..).lasts cat checked
    obtain ⟨cat₂, _⟩ := (composed_expressions ctx arguments).lasts cat₁ passed
    obtain ⟨_, m, found, count⟩ := runs_checkConstructor checked
    obtain ⟨key, keyed, stands⟩ :=
      stands_of_emit (.methodToken r) cat₂ asked cat (final ▸ .refl _)
    refine ⟨_, mem_singleton_self _, value, token, encoded, there, ?_⟩
    rw [Tables.parameterCount?_of_callee? (finished.callee?_of_methodToken found keyed stands), count]
    rfl
  | callIndirect sig function arguments =>
    cases is
    simp only [expression, runs_bind] at run
    obtain ⟨_, σ₁, passed, _, σ₂, pointed, blob, σ₃, signed, token, σ₄, asked, _, σ₅, written, ended⟩ :=
      run
    obtain ⟨final, value, encoded, there⟩ := last_of_opToken written (same_finishCall ended)
    obtain ⟨cat₁, _⟩ := (composed_expressions ctx arguments).lasts cat passed
    obtain ⟨cat₂, _⟩ := (composed_parts ctx function).lasts cat₁ pointed
    obtain ⟨cat₃, _⟩ := (Composed.emit (.methodBlob ..)).lasts cat₂ signed
    obtain ⟨key, keyed, stands⟩ :=
      stands_of_emit (.standAloneSig blob) cat₃ asked cat (final ▸ .refl _)
    obtain ⟨rfl, _⟩ := Emit.runs_pure.1 keyed
    obtain ⟨_, signed, _⟩ := runs_emit.1 signed
    obtain ⟨i, declared, signs⟩ := Session.signs_of_describes (stands.describes cat) (.inr rfl)
      (callee?_methodBlob signed)
    exact ⟨_, mem_singleton_self _, value, _, encoded, there,
      Tables.parameterCount?_of_callee? (Session.callee?_of_declared declared signs)⟩
  | _ => cases is

/-- Every value that an action comes to has its site, also if it is compiled in a later session. -/
theorem Composed.laterSites {α : Type} {marks : List Mark} {c : Compile α}
    (h : c.Composed ctx marks) {a : α} (cat : σ.session.Catalogued ctx.source)
    (run : c.Runs σ a σ') (final : s.Catalogued ctx.source) (before : σ'.session.Before s)
    {code : Code} (within : σ'.draft.code.Extends code) :
    ∃ sites : List (Draft × Draft), List.Forall₂ (fun e x => Site ctx code e (⟨x.1, s⟩, ⟨x.2, s⟩))
      (marks.filterMap Mark.value?) sites := by
  have none {marks : List Mark} (symbols : marks.all Mark.isSymbol = true) :
      ∃ sites : List (Draft × Draft), List.Forall₂ (fun e x => Site ctx code e (⟨x.1, s⟩, ⟨x.2, s⟩))
        (marks.filterMap Mark.value?) sites := by
    rw [(Mark.filterMap_of_isSymbol symbols).1]
    exact ⟨[], .nil⟩
  induction h generalizing σ σ' with
  | pure | get | emit => exact none rfl
  | passed _ symbols => exact none symbols
  | modify f h | modifyGet f h => exact none (h σ.draft).isSymbol
  | fault => exact absurd run runs_fault
  | bind hc hf ihc ihf =>
    obtain ⟨_, σ₁, first, second⟩ := runs_bind.1 run
    obtain ⟨cat₁, _⟩ := hc.lasts cat first
    obtain ⟨_, before₁, _⟩ := (hf _).lasts cat₁ second
    obtain ⟨sites₁, h₁⟩ :=
      ihc cat first (before₁.trans before) (((hf _).extendsCode second).trans within)
    obtain ⟨sites₂, h₂⟩ := ihf _ cat₁ second before within
    rw [filterMap_append]
    exact ⟨_, rel_append h₁ h₂⟩
  | value h ih =>
    obtain ⟨sites, each⟩ := ih cat run before within
    obtain ⟨_, _, again⟩ := h.lasts cat run
    exact ⟨(σ.draft, σ'.draft) :: sites, .cons ⟨again final before, within⟩ each⟩
  | fork _ ih => exact ih cat run before within

end Compile

/-- A call stands at a place of the code, and where its token leads so many parameters are declared. -/
def Image.CallsAt (image : Image) (code : Code) (k : Nat) (call : Call) : Prop :=
  ∃ o ∈ call.opcodes, ∃ operand token, code.ReadsAt k (.plain o operand) ∧
    Token.decode (Bytes.ofLe operand) = .ok token ∧
    image.tables.parameterCount? image.blobs token = some call.declared

namespace Module

open Compile

/-- Each body of a module is compiled to the code that the image has for its method. Where the code of a
call ends, there is the instruction of the call, and its token leads to a signature that declares as many
parameters as are passed; for a constructor the types that the call adds come on top, and for an indirect
call it is the number in its signature, whatever is passed. -/
theorem calls_declare {σ : Type} {m : Module} {options : Options} {writer : Option (SymbolWriter σ)}
    {image : Image} {state state' : σ}
    (h : (m.assemble options writer).run state = (.ok image, state')) :
    ∃ n s, Numbering.ofModule m = .ok n ∧
      ∀ x ∈ (Source.definitions ⟨m, n⟩).flatMap (·.methods), ∀ b, x.1.body = some b →
        ∃ encoded encoding d code, image.methodBody? x.2 = some encoding ∧
          MethodBody.encode encoded = .ok encoding ∧ encoded.code = code.layout.bytes ∧
          Compiles (.ofBody ⟨m, n⟩ options.debugSymbols x.1 b) b s d code s ∧
          ∃ sites : List (Draft × Draft), List.Forall₂ (fun e y =>
              Site (.ofBody ⟨m, n⟩ options.debugSymbols x.1 b) d.code e (⟨y.1, s⟩, ⟨y.2, s⟩) ∧
              ∀ call, e.call? = some call → image.CallsAt code (y.2.code.stop - 1) call)
            b.values sites := by
  obtain ⟨symbols, made⟩ := image_of_assemble h
  obtain ⟨n, key, area, s, entryPoint, numbering, ran, _, rfl⟩ := image_eq_ok made
  obtain ⟨order, ts, placed, assigned⟩ := Source.definitions_eq_place numbering
  have finished : s.Finished ⟨m, n⟩ := ⟨Session.records_of_emit ran, order, ⟨ts, placed⟩, assigned⟩
  obtain ⟨os, compiled⟩ := compiled_of_emit numbering ran
  refine ⟨n, s, numbering, fun x hx b held => ?_⟩
  obtain ⟨o, _, becomes, stored⟩ := exists_of_forall₂
    (compiled.stored numbering (imageOf options key area s entryPoint) rfl rfl).flip hx
  cases o with
  | none => cases becomes.symm.trans held
  | some e =>
    obtain ⟨own, s₀, s₂, held', run, encodes, cat, before⟩ := becomes
    obtain rfl : b = own := Option.some.inj (held.symm.trans held')
    obtain ⟨d, wider, s₁, locals, compiles, signature, same⟩ := compiles_of_encodeBody run
    have code : e.body.code = wider.layout.bytes := by rw [same]
    have runnable := compiles.runnable (by
      rw [← Code.length_bytes_layout, ← code]
      exact e.body.length_code_lt encodes)
    -- The body has been compiled on the way to the final session, and compiles there to the same draft.
    obtain ⟨cat₁, _, again⟩ := (composed_body _ b).lasts cat compiles.run
    obtain ⟨_, before₁, _⟩ := (Emit.Asks.localSignature b.locals).lasts.run cat₁ signature
    have later := before₁.trans before
    obtain ⟨sites, each⟩ :=
      (composed_body _ b).laterSites cat compiles.run finished.catalogued later (.refl d.code)
    refine ⟨e.body, e.encoding, d, wider, stored e rfl, encodes, code,
      ⟨again finished.catalogued later, compiles.placed, compiles.settled⟩, sites,
      each.imp fun e y site => ⟨site, fun call is => ?_⟩⟩
    obtain ⟨o, one, value, token, encoded, there, counts⟩ :=
      declares_of_call finished is site.run
    refine ⟨o, one, _, token, runnable.readsAt_simple (site.within.getElem? there), ?_, counts⟩
    rw [Bytes.ofLe_le, Nat.mod_eq_of_lt (Token.encode_lt encoded), Token.decode_encode encoded]

theorem calls_declare_courier :
    ∃ image n s d code, (courier.assemble {} none : Service Unit Image).run () = (.ok image, ()) ∧
      Compiles (.ofBody ⟨courier, n⟩ false courierMain delivery) delivery s d code s ∧
      ∃ k, image.CallsAt code k ⟨[.call, .callvirt], 1, 1⟩ := by
  obtain ⟨image, symbols, made⟩ := image_courier
  obtain ⟨n, s, numbered, each⟩ := calls_declare (assemble_of_toOption made)
  obtain rfl : courierSource.numbering = n := Except.ok.inj numbered
  obtain ⟨_, _, d, code, _, _, _, compiles, sites, calls⟩ := each _ List.mem_cons_self delivery rfl
  have sends : delivery.values[2]? = some _ := rfl
  obtain ⟨y, _, _, declares⟩ := exists_of_forall₂ calls.flip (List.mem_of_getElem? sends)
  exact ⟨image, _, s, d, code, assemble_of_toOption made, compiles, _, declares _ rfl⟩

end Module
end Cil
