import Cil.Proofs.RememberedRows

/-!
All requests for references, down to those of a body and of the signature of its locals. Each is made of
the actions that ask for rows, so that it is answered once and for all.
-/

namespace Cil
namespace Emit.Asks

variable {src : Source}

theorem typeInfo (id : TypeId) : Asks src (Emit.ofExcept (src.module.typeInfo id)) :=
  .ofExcept (fails_typeInfo .references ..)

theorem forM {α : Type} {l : List α} {f : α → Emit Unit} (h : ∀ a, Asks src (f a)) :
    Asks src (l.forM f) := by
  induction l with
  | nil => exact .pure ()
  | cons a l ih => exact .bind (h a) fun _ => ih

theorem typeRef (id : TypeId) : Asks src (typeRef src id) := (encloses_typeRefWithin src _).asks id

theorem namedType (id : TypeId) : Asks src (namedType src id) := by
  refine .bind (.typeInfo id) fun t => ?_
  split
  · exact .bind (.ofExcept (fails_typeRow .references ..)) fun _ => .pure _
  · exact .bind (.typeRef id) fun _ => .pure _

theorem primitiveRefRow (p : Primitive) : Asks src (primitiveRefRow src p) := by
  unfold Cil.primitiveRefRow
  split
  · exact .bind (.assemblyRef _) fun _ => .bind (.string _) fun _ => .bind (.string _) fun _ => .pure _
  · exact .throw rfl

end Emit.Asks

namespace Emit

variable {src : Source}

theorem madeBy_primitiveRefRow (p : Primitive) :
    (Referent.primitive p).MadeBy src (primitiveRefRow src p) := by
  have parts {s s' : Session} {row : Row.TypeRef} (cat : s.Catalogued src)
      (run : (primitiveRefRow src p).Runs s row s') :
      (Referent.primitive p).row? s' = (Referent.primitive p).row? s ∧
        ∃ library, src.module.coreLibrary = some library ∧ s'.DescribesPrimitive library p row := by
    unfold primitiveRefRow at run
    cases found : src.module.coreLibrary with
    | none =>
      simp only [found] at run
      exact absurd run runs_throw
    | some library =>
      simp only [found, runs_bind, runs_pure] at run
      obtain ⟨n, s₁, run₁, name, s₂, run₂, typeNamespace, s₃, run₃, rfl, rfl⟩ := run
      obtain ⟨known, others⟩ := assemblyRef_runs cat run₁
      have named := wrote_string ((Asks.assemblyRef library).lasts.run cat run₁).1 run₂
      have spaced := wrote_string named.catalogued run₃
      refine ⟨?_, library, rfl, ⟨n, ?_, rfl⟩, named.holds spaced.before, spaced.holds (.refl _)⟩
      · rw [spaced.same.row?, named.same.row?]
        exact others _ (by simp)
      · rw [spaced.same.row?, named.same.row?]
        exact known
  exact ⟨fun cat fresh run => (parts cat run).1.trans fresh, fun cat run => (parts cat run).2⟩

namespace Asks

theorem primitiveType (p : Primitive) : Asks src (primitiveType src p) := by
  unfold Cil.primitiveType
  split
  · exact .namedType _
  · exact .bind (.remembered _ (.primitiveRefRow p) (madeBy_primitiveRefRow p)) fun _ => .pure _

theorem checkCompressible (n : Nat) : Asks src (checkCompressible n) := by
  unfold Cil.checkCompressible
  split
  · exact .pure _
  · exact .throw rfl

theorem isValueType (id : TypeId) : Asks src (isValueType src id) :=
  .bind (.typeInfo id) fun _ => .pure _

mutual

theorem resolveType : ∀ t : TypeSig, Asks src (resolveType src t)
  | .primitive _ | .pointer none => by
    rw [Cil.resolveType]
    exact .pure _
  | .named id => by
    rw [Cil.resolveType]
    refine .bind (.namedType id) fun _ => .bind (.isValueType id) fun v => ?_
    cases v <;> exact .pure _
  | .generic id arguments => by
    rw [Cil.resolveType]
    exact .bind (.checkCompressible _) fun _ => .bind (.isValueType id) fun _ =>
      .bind (.namedType id) fun _ => .bind (resolveTypes #[] arguments) fun _ => .pure _
  | .array element shape => by
    rw [Cil.resolveType]
    exact .bind (.checkCompressible _) fun _ => .bind (.forM .checkCompressible) fun _ =>
      .bind (resolveType element) fun _ => .pure _
  | .vector inner | .pointer (some inner) | .reference inner | .pinned inner => by
    rw [Cil.resolveType]
    exact .bind (resolveType inner) fun _ => .pure _
  | .modified modifier required inner => by
    rw [Cil.resolveType]
    exact .bind (.namedType modifier) fun _ => .bind (resolveType inner) fun _ => .pure _
  | .typeParameter n | .methodParameter n => by
    rw [Cil.resolveType]
    exact .bind (.checkCompressible n) fun _ => .pure _
  | .functionPointer isInstance explicitThis convention returnType parameters => by
    rw [Cil.resolveType]
    exact .bind (.checkCompressible _) fun _ => .bind (resolveType returnType) fun _ =>
      .bind (resolveTypes #[] parameters) fun _ => .pure _

theorem resolveTypes : ∀ (done : Array ResolvedType) (ts : List TypeSig),
    Asks src (resolveTypes src done ts)
  | _, [] => by
    rw [Cil.resolveTypes]
    exact .pure _
  | _, t :: ts => by
    rw [Cil.resolveTypes]
    exact .bind (resolveType t) fun _ => resolveTypes _ ts

end

theorem typeBlob (t : TypeSig) : Asks src (typeBlob src t) :=
  .bind (.resolveType t) fun _ => .ofEncoding _

theorem methodBlob (s : MethodSignature) (genericArity : Nat) (varArgs : List TypeSig) :
    Asks src (methodBlob src s genericArity varArgs) := by
  refine .bind ?_ fun _ => .ofEncoding _
  exact .bind (.checkCompressible _) fun _ => .bind (.checkCompressible _) fun _ =>
    .bind (.resolveType _) fun _ => .bind (.resolveTypes ..) fun _ =>
      .bind (.resolveTypes ..) fun _ => .pure _

theorem fieldBlob (f : FieldDef) : Asks src (fieldBlob src f) := by
  rw [Cil.fieldBlob]
  split
  · split
    · exact .bind (.namedType _) fun _ => .bind (.resolveType _) fun _ => .ofEncoding _
    · exact .throw rfl
  · exact .bind (.resolveType _) fun _ => .ofEncoding _

theorem propertyBlob (p : Property) : Asks src (propertyBlob src p) :=
  .bind (.checkCompressible _) fun _ => .bind (.resolveType _) fun _ =>
    .bind (.resolveTypes ..) fun _ => .ofEncoding _

theorem localsBlob (locals : Array LocalVariable) : Asks src (localsBlob src locals) :=
  .bind (.checkCompressible _) fun _ => .bind (.resolveTypes ..) fun _ => .ofEncoding _

theorem instantiationBlob (arguments : List TypeSig) : Asks src (instantiationBlob src arguments) :=
  .bind (.checkCompressible _) fun _ => .bind (.resolveTypes ..) fun _ => .ofEncoding _

theorem typeSpec (t : TypeSig) : Asks src (Cil.typeSpec src t) :=
  .bind (.typeBlob t) fun blob => .typeSpecRow blob

theorem typeToken (t : TypeSig) : Asks src (typeToken src t) := by
  unfold Cil.typeToken
  split
  · exact .namedType _
  · exact .primitiveType _
  · exact .bind (.typeSpec _) fun _ => .pure _

theorem memberRef (parent : CodedIndex .memberRefParent) (name : String) (signature : Bytes) :
    Asks src (Cil.memberRef parent name signature) :=
  .bind (.string _) fun _ => .bind (.blob _) fun _ => .memberRefRow _

theorem memberParent (parent : Option TypeSig) (owner : TypeId) :
    Asks src (memberParent src parent owner) := by
  unfold Cil.memberParent
  extract_lets same
  clear_value same
  split
  · exact .bind (.typeToken _) fun _ => .pure _
  · refine .bind (.typeInfo owner) fun t => ?_
    split
    · exact .pure _
    · exact .bind (.typeRef owner) fun _ => .pure _

theorem methodDefOrRef (r : MethodRef) : Asks src (methodDefOrRef src r) := by
  refine .bind (.ofExcept (fails_methodDef .references ..)) fun m =>
    .bind (.memberParent ..) fun parent => ?_
  cases parent with
  | none =>
    refine .bind (.ofExcept (fails_methodRow .references ..)) fun row => ?_
    split
    · exact .pure _
    · exact .bind (.methodBlob ..) fun _ => .bind (.memberRef ..) fun _ => .pure _
  | some parent => exact .bind (.methodBlob ..) fun _ => .bind (.memberRef ..) fun _ => .pure _

theorem methodToken (r : MethodRef) : Asks src (methodToken src r) := by
  refine .bind (.methodDefOrRef r) fun method => ?_
  split
  · exact .pure _
  · exact .bind (.instantiationBlob _) fun blob => .bind (.methodSpecRow method blob) fun _ => .pure _

theorem fieldToken (r : FieldRef) : Asks src (fieldToken src r) := by
  refine .bind (.ofExcept (fails_fieldDef .references ..)) fun f =>
    .bind (.memberParent ..) fun parent => ?_
  cases parent with
  | none => exact .bind (.ofExcept (fails_fieldRow .references ..)) fun _ => .pure _
  | some parent => exact .bind (.fieldBlob f) fun _ => .bind (.memberRef ..) fun _ => .pure _

theorem arrayMethod (array : TypeSig) (name : String) (s : MethodSignature) :
    Asks src (arrayMethod src array name s) :=
  .bind (.typeSpec array) fun _ => .bind (.methodBlob ..) fun _ => .bind (.memberRef ..) fun _ =>
    .pure _

theorem standAloneSig (signature : Bytes) : Asks src (Cil.standAloneSig signature) :=
  .bind (.blob signature) fun _ => .bind (.standAloneSigRow _) fun _ => .pure _

theorem attributeConstructor (r : MethodRef) : Asks src (attributeConstructor src r) := by
  unfold Cil.attributeConstructor
  extract_lets made
  have hmade (u : Unit) : Asks src (made u) := by
    refine .bind (.methodDefOrRef r) fun m => ?_
    split <;> exact .pure _
  clear_value made
  split
  · exact hmade ()
  · exact .bind (.throw rfl) hmade

theorem named (n : Named) : Asks src (n.token src) := by
  cases n with
  | type t => exact .bind (.typeToken t) fun _ => .pure _
  | field r => exact .fieldToken r
  | method r => exact .methodToken r
  | arrayMethod array name s => exact .arrayMethod array name s
  | signature s => exact .bind (.methodBlob s 0 []) fun _ => .standAloneSig _
  | text v => exact .bind (.userString v) fun _ => .pure _

theorem localSignature (locals : Array LocalVariable) :
    Asks src (Compile.localSignature src locals) := by
  unfold Compile.localSignature
  split
  · exact .pure _
  · exact .bind (.localsBlob locals) fun _ => .bind (.standAloneSig _) fun _ => .ofEncoding _

theorem confined {α : Type} {c : Emit α} {A : Part → Prop} {E : Error → Prop} (permits : Permits A E)
    (h : Asks src c) : c.Confined A E := by
  induction h with
  | pure a => exact .pure a
  | ofExcept fails => exact .ofExcept ⟨fun failed => permits.error (fails.holds failed)⟩
  | bind _ _ ihc ihf => exact ihc.bind ihf
  | string text => exact .string text
  | blob bytes => exact .blob permits.encoding bytes
  | userString text => exact .userString permits.encoding text
  | remembered x _ _ ih =>
    refine Confined.get.bind fun s => ?_
    split
    · exact .pure _
    · exact ih.bind fun row => (Confined.push (permits.table (Session.isReference_table x)) row).bind
        fun n => .bind (.update fun s => by cases x <;> rfl) fun _ => .pure _
  | memberRefRow row => exact .intern (t := .memberRef) (permits.table rfl) row
  | standAloneSigRow row => exact .intern (t := .standAloneSig) (permits.table rfl) row
  | typeSpecRow blob | methodSpecRow _ blob =>
    exact (Confined.blob permits.encoding blob).bind fun _ => .internSpec (permits.table rfl) ..

end Asks
end Emit
end Cil
