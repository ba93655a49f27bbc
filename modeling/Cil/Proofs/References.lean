import Cil.Proofs.Steps
import Cil.Proofs.Writing

/-!
References resolve: whatever row or token stands for a type or a member is one that the tables have.
-/

namespace Cil

open List

theorem Fact.index_parent {src : Source} {late : Bool} (i : TypeDefOrRef) {N : List (Fact late)} :
    (Fact.index src i.parent).Follows (.index src i :: N) := by
  intro s facts
  have held := facts (.index src i) mem_cons_self
  cases i with
  | null => cases held
  | row t n mem =>
    cases t <;> first | exact held | exact absurd mem (by decide)

namespace Gives

attribute [local simp] TableRow.Writable TableRow.cells

variable {src : Source} {late : Bool} {N : List (Fact late)}

theorem remember (x : Referent) {row : x.table.Row} (writable : TableRow.Writable src N x.table row) :
    Gives src N (Emit.remember x row) fun n => [.row src x.table n] := by
  refine .bind (.push _ writable) fun n => .bind (.update (Q := []) fun s sound facts => ?_)
    fun _ => .pure_of_mem (by simp)
  have has : (s.reach src).HasRow x.table n := facts (.row src x.table n) (by simp)
  cases x with
  | assembly =>
    refine ⟨{ sound with assemblyRefs := fun h => ?_ }, .of_eq rfl rfl, by simp⟩
    exact (RowMap.row?_insert h).elim (· ▸ has) sound.assemblyRefs
  | module =>
    refine ⟨{ sound with moduleRefs := fun h => ?_ }, .of_eq rfl rfl, by simp⟩
    exact (RowMap.row?_insert h).elim (· ▸ has) sound.moduleRefs
  | type =>
    refine ⟨{ sound with typeRefs := fun h => ?_ }, .of_eq rfl rfl, by simp⟩
    exact (RowMap.row?_insert h).elim (· ▸ has) sound.typeRefs
  | primitive =>
    refine ⟨{ sound with primitiveRefs := fun h => ?_ }, .of_eq rfl rfl, by simp⟩
    exact (mem_cons.1 h).elim (fun same => (Prod.mk.inj same).2 ▸ has) sound.primitiveRefs

theorem remembered {x : Referent} {make : Emit x.table.Row}
    (h : ∀ {N : List (Fact late)}, Gives src N (make >>= Emit.remember x) fun n =>
    [.row src x.table n]) :
    Gives src N (Emit.remembered x make) fun n => [.row src x.table n] := by
  refine .bind_get_row x.table x.row? (fun {s n} sound known => ?_) fun s => ?_
  · cases x with
    | assembly => exact sound.assemblyRefs known
    | module => exact sound.moduleRefs known
    | type => exact sound.typeRefs known
    | primitive p =>
      obtain ⟨before, after, all, _⟩ := lookup_eq_some_iff.1 known
      exact sound.primitiveRefs (p := p) (by simp [all])
  · split
    case h_1 n known => exact .pure_of_mem (by simp [known])
    case h_2 => exact h

theorem assemblyRef (id : AssemblyRefId) :
    Gives src N (assemblyRef src id) fun row => [.row src .assemblyRef row] := by
  refine .remembered fun {N} => ?_
  unfold assemblyRefRow
  split
  · simp only [bind_assoc, pure_bind]
    exact .bind (.blob? _) fun _ => .bind (.blob? _) fun _ => .bind (.string? _) fun _ =>
      .bind (.string _) fun _ => .remember (.assembly id) (by simp)
  · exact .bind_throw

theorem moduleRef (id : ModuleRefId) :
    Gives src N (moduleRef src id) fun row => [.row src .moduleRef row] := by
  refine .remembered fun {N} => ?_
  unfold moduleRefRow
  split
  · simp only [bind_assoc, pure_bind]
    exact .bind (.string _) fun _ => .remember (.module id) (by simp)
  · exact .bind_throw

theorem typeScope {within : TypeId → Emit Nat} {t : TypeInfo}
    (h : ∀ {N : List (Fact late)} d, Gives src N (within d) fun row => [.row src .typeRef row]) :
    Gives src N (typeScope src within t) fun scope => [.index src scope] := by
  unfold Cil.typeScope
  split
  · exact .throw
  · exact .throw
  · exact .bind_ofExcept fun _ _ => .ite (fun _ => .throw) fun _ =>
      .bind (h _) fun _ => .pure_of_mem (by simp)
  · exact .bind (.assemblyRef _) fun _ => .pure_of_mem (by simp)
  · exact .bind (.moduleRef _) fun _ => .pure_of_mem (by simp)

theorem typeRefWithin (fuel : Nat) (id : TypeId) :
    Gives src N (typeRefWithin src fuel id) fun row => [.row src .typeRef row] := by
  induction fuel generalizing N id with
  | zero => exact .bind_ofExcept fun _ _ => .throw
  | succ fuel ih =>
    refine .remembered fun {N} => ?_
    simp only [typeRefRow, bind_assoc, pure_bind]
    exact .bind_ofExcept fun t _ => .bind (.typeScope fun d => ih d) fun _ =>
      .bind (.string? _) fun _ =>
      .bind (.string _) fun _ => .remember (.type id) (by simp)

theorem typeRef (id : TypeId) :
    Gives src N (typeRef src id) fun row => [.row src .typeRef row] :=
  .typeRefWithin _ id

theorem checkCompressible (n : Nat) : Gives src N (checkCompressible n) fun _ => [] :=
  .ite (fun _ => .pure (by simp)) fun _ => .throw

theorem isValueType (id : TypeId) : Gives src N (isValueType src id) fun _ => [] :=
  .bind_ofExcept fun _ _ => .pure (by simp)

theorem namedType (id : TypeId) : Gives src N (namedType src id) fun i => [.index src i] := by
  refine .bind_ofExcept fun t _ => .ite (fun _ => ?_) fun _ => ?_
  · exact .bind_ofExcept fun row known => .define (·.typeRow known) (.pure_of_mem (by simp))
  · exact .bind (.typeRef id) fun row => .pure_of_mem (by simp)

theorem primitiveType (p : Primitive) :
    Gives src N (primitiveType src p) fun i => [.index src i] := by
  unfold Cil.primitiveType
  split
  case h_1 id _ => exact .namedType id
  case h_2 =>
    refine .bind (.remembered fun {N} => ?_) fun _ => .pure_of_mem (by simp)
    unfold primitiveRefRow
    split
    · simp only [bind_assoc, pure_bind]
      exact .bind (.assemblyRef _) fun _ => .bind (.string _) fun _ => .bind (.string _) fun _ =>
        .remember (.primitive p) (by simp)
    · exact .bind_throw

mutual

theorem resolveType : (t : TypeSig) → {N : List (Fact late)} →
    Gives src N (resolveType src t) fun _ => []
  | .primitive p, _ => .pure (by simp)
  | .named id, _ => .bind (.namedType id) fun _ => .bind (.isValueType id) fun _ =>
    .ite (fun _ => .pure (by simp)) fun _ => .pure (by simp)
  | .generic id arguments, _ => .bind (.checkCompressible _) fun _ => .bind (.isValueType id) fun _ =>
    .bind (.namedType id) fun _ => .bind (resolveTypes #[] arguments) fun _ =>
    .pure (by simp)
  | .array element shape, _ => .bind (.checkCompressible _) fun _ =>
    .bind (.forM fun _ _ => .checkCompressible _) fun _ => .bind (resolveType element) fun _ =>
    .pure (by simp)
  | .vector inner, _ | .pointer (some inner), _ | .reference inner, _ | .pinned inner, _ =>
    .bind (resolveType inner) fun _ => .pure (by simp)
  | .pointer none, _ => .pure (by simp)
  | .modified modifier required inner, _ => .bind (.namedType modifier) fun _ =>
    .bind (resolveType inner) fun _ => .pure (by simp)
  | .typeParameter n, _ | .methodParameter n, _ =>
    .bind (.checkCompressible n) fun _ => .pure (by simp)
  | .functionPointer _ _ _ returnType parameters, _ => .bind (.checkCompressible _) fun _ =>
    .bind (resolveType returnType) fun _ => .bind (resolveTypes #[] parameters) fun _ =>
    .pure (by simp)

theorem resolveTypes : (done : Array ResolvedType) → (ts : List TypeSig) → {N : List (Fact late)} →
    Gives src N (resolveTypes src done ts) fun _ => []
  | _, [], _ => .pure (by simp)
  | _, t :: ts, _ => .bind (resolveType t) fun _ => resolveTypes _ ts

end

theorem resolveMethod (m : MethodSignature) (genericArity : Nat) (varArgs : List TypeSig) :
    Gives src N (resolveMethod src m genericArity varArgs) fun _ => [] :=
  .bind (.checkCompressible _) fun _ => .bind (.checkCompressible _) fun _ =>
    .bind (.resolveType _) fun _ => .bind (.resolveTypes _ _) fun _ =>
    .bind (.resolveTypes _ _) fun _ => .pure (by simp)

theorem typeBlob (t : TypeSig) : Gives src N (typeBlob src t) fun _ => [] :=
  .bind (.resolveType t) fun _ => .ofEncoding

theorem methodBlob (m : MethodSignature) (genericArity : Nat) (varArgs : List TypeSig) :
    Gives src N (methodBlob src m genericArity varArgs) fun _ => [] :=
  .bind (.resolveMethod _ _ _) fun _ => .ofEncoding

theorem fieldBlob (f : FieldDef) : Gives src N (fieldBlob src f) fun _ => [] := by
  refine .ite (fun _ => ?_) fun _ => .bind (.resolveType _) fun _ => .ofEncoding
  split
  · exact .bind (.namedType _) fun _ => .bind (.resolveType _) fun _ => .ofEncoding
  · exact .bind_throw

theorem propertyBlob (p : Property) : Gives src N (propertyBlob src p) fun _ => [] :=
  .bind (.checkCompressible _) fun _ => .bind (.resolveType _) fun _ =>
    .bind (.resolveTypes _ _) fun _ => .ofEncoding

theorem localsBlob (locals : Array LocalVariable) : Gives src N (localsBlob src locals) fun _ => [] :=
  .bind (.checkCompressible _) fun _ => .bind (.resolveTypes _ _) fun _ => .ofEncoding

theorem instantiationBlob (arguments : List TypeSig) :
    Gives src N (instantiationBlob src arguments) fun _ => [] :=
  .bind (.checkCompressible _) fun _ => .bind (.resolveTypes _ _) fun _ => .ofEncoding

theorem typeSpec (t : TypeSig) : Gives src N (typeSpec src t) fun row => [.row src .typeSpec row] :=
  .bind (.typeBlob t) fun _ => .bind (.blob _) fun _ =>
    .internSpec .typeSpec _ _ (by simp)

theorem typeToken (t : TypeSig) : Gives src N (typeToken src t) fun i => [.index src i] := by
  unfold Cil.typeToken
  split
  · exact .namedType _
  · exact .primitiveType _
  · exact .bind (.typeSpec t) fun _ => .pure_of_mem (by simp)

theorem memberRef {parent : CodedIndex .memberRefParent} (name : String) (signature : Bytes)
    (known : .index src parent ∈ N) :
    Gives src N (memberRef parent name signature) fun row => [.row src .memberRef row] :=
  .bind (.string _) fun _ => .bind (.blob _) fun _ =>
    .intern .memberRef (by simp [known])

theorem memberParent (parent : Option TypeSig) (owner : TypeId) :
    Gives src N (memberParent src parent owner) fun o => (o.map (.index src)).toList := by
  unfold Cil.memberParent
  lift_lets
  intro same
  clear_value same
  split
  case h_1 => exact .bind (.typeToken _) fun i => .pure (by simpa using Fact.index_parent i)
  case h_2 =>
    exact .bind_ofExcept fun t _ => .ite (fun _ => .pure (by simp)) fun _ =>
      .bind (.typeRef _) fun _ => .pure_of_mem (by simp)

theorem methodDefOrRef (r : MethodRef) :
    Gives src N (methodDefOrRef src r) fun i => [.index src i] := by
  refine .bind_ofExcept fun m _ => .bind (.memberParent _ _) fun parent => ?_
  cases parent with
  | none =>
    refine .bind_ofExcept fun row known =>
      .define (·.methodRow known) (.ite (fun _ => ?_) fun _ => ?_)
    · exact .pure_of_mem (by simp)
    · exact .bind (.methodBlob _ _ _) fun _ => .bind (.memberRef _ _ (by simp)) fun _ =>
        .pure_of_mem (by simp)
  | some parent =>
    exact .bind (.methodBlob _ _ _) fun _ => .bind (.memberRef _ _ (by simp)) fun _ =>
      .pure_of_mem (by simp)

theorem methodToken (r : MethodRef) :
    Gives src N (methodToken src r) fun token => [.token src .method token] := by
  refine .bind (.methodDefOrRef r) fun method => .ite (fun _ => ?_) fun _ => ?_
  · exact .pure (forall_mem_singleton.2 (Fact.token_index src (by decide) (by simp)))
  · refine .bind (.instantiationBlob _) fun _ => .bind (.bind (.blob _) fun _ =>
      .internSpec .methodSpec _ _ ?_) fun row => .pure ?_
    · simp
    · exact forall_mem_singleton.2 (Fact.token_row src (by decide) (by simp))

theorem fieldToken (r : FieldRef) :
    Gives src N (fieldToken src r) fun token => [.token src .field token] := by
  refine .bind_ofExcept fun f _ => .bind (.memberParent _ _) fun parent => ?_
  cases parent with
  | some parent =>
    exact .bind (.fieldBlob f) fun _ => .bind (.memberRef _ _ (by simp)) fun _ =>
      .pure (forall_mem_singleton.2 (Fact.token_row src (by decide) (by simp)))
  | none =>
    exact .bind_ofExcept fun row known => .define (·.fieldRow known)
      (.pure (forall_mem_singleton.2 (Fact.token_row src (by decide) (by simp))))

theorem arrayMethod (array : TypeSig) (name : String) (m : MethodSignature) :
    Gives src N (arrayMethod src array name m) fun token => [.token src .method token] :=
  .bind (.typeSpec array) fun _ => .bind (.methodBlob _ _ _) fun _ =>
    .bind (.memberRef _ _ (by simp)) fun _ =>
    .pure (forall_mem_singleton.2 (Fact.token_row src (by decide) (by simp)))

theorem standAloneSig (signature : Bytes) :
    Gives src N (standAloneSig signature) fun token => [.token src .signature token] :=
  .bind (.blob _) fun _ =>
    .bind (.intern .standAloneSig (by simp)) fun _ =>
    .pure (forall_mem_singleton.2 (Fact.token_row src (by decide) (by simp)))

theorem attributeConstructor (r : MethodRef) :
    Gives src N (attributeConstructor src r) fun i => [.index src i] := by
  refine .ite (fun _ => .bind (.methodDefOrRef r) fun method => ?_) fun _ => .bind_throw
  cases method with
  | null =>
    exact .pure (forall_mem_singleton.2 fun s facts =>
      absurd (facts (.index src .null) mem_cons_self) (by simp [Fact.index, Cell.Resolves]))
  | row t n mem =>
    cases t with
    | methodDef | memberRef => exact .pure_of_mem (by simp)
    | _ => exact absurd mem (by decide)

theorem named (n : Named) : Gives src N (n.token src) fun token => [.token src n.kind token] := by
  cases n with
  | type t =>
    have types : ∀ t ∈ CodedIndex.Kind.typeDefOrRef.tables, t ∈ TokenKind.type.tables := by decide
    exact .bind (.typeToken t) fun i =>
      .pure (forall_mem_singleton.2 (Fact.token_index src types (by simp)))
  | field r => exact .fieldToken r
  | method r => exact .methodToken r
  | arrayMethod array name m => exact .arrayMethod array name m
  | signature m => exact .bind (.methodBlob _ _ _) fun _ => .standAloneSig _
  | text v => exact .bind (.userString v) fun _ => .pure_of_mem (by simp [Named.kind])

end Gives
end Cil
