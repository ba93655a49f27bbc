import Cil.Proofs.References

/-!
The rows of definitions resolve, and there are as many as the module tells.
-/

namespace Cil
namespace Gives

attribute [local simp] TableRow.Writable TableRow.cells

open Populate

variable {src : Source} {late : Bool} {N : List (Fact late)}

theorem constant {parent : CodedIndex .hasConstant} (v : Constant) (known : .index src parent ∈ N) :
    Gives src N (constant parent v) fun _ => [] :=
  .bind (.blob _) fun _ =>
    .bind (.insert .constant (by simp [known])) fun _ =>
    .pure (by simp)

theorem marshal {parent : CodedIndex .hasFieldMarshal} (descriptor : Bytes)
    (known : .index src parent ∈ N) : Gives src N (marshal parent descriptor) fun _ => [] :=
  .bind (.blob _) fun _ =>
    .bind (.insert .fieldMarshal (by simp [known])) fun _ =>
    .pure (by simp)

theorem security {parent : CodedIndex .hasDeclSecurity} (declarations : List SecurityDeclaration)
    (known : .index src parent ∈ N) : Gives src N (security src parent declarations) fun _ => [] :=
  .forM fun _ _ => .bind_ofExcept fun _ _ => .bind (.blob _) fun _ =>
    .bind (.insert .declSecurity (by simp [known])) fun _ =>
    .pure (by simp)

section

variable {d : Definition} (hd : d ∈ src.definitions)

include hd

theorem numbers {α : Type} {c : Emit α} {Q : α → List (Fact late)}
    (h : Gives src (.row src .typeDef d.rows.row :: .next src .field d.rows.firstField ::
      .next src .methodDef d.rows.firstMethod :: N) c Q) : Gives src N c Q := by
  refine .define (fun numbered => (numbered.definition hd).row) (.assume
    [.next src .field d.rows.firstField, .next src .methodDef d.rows.firstMethod] ?_ (h.supply ?_))
  · intro numbered
    have fits := numbered.definition hd
    have within (t : Table) (s : Session) : src.total t ≤ (s.reach src).rows t := Nat.le_max_left ..
    simp only [List.forall_mem_cons, List.not_mem_nil, false_implies, implies_true, and_true]
    refine ⟨fun s => ⟨fits.fields.1, ?_⟩, fun s => ⟨fits.methods.1, ?_⟩⟩
    · have := fits.fields.2
      have := within .field s
      simp only [Source.counters] at *
      omega
    · have := fits.methods.2
      have := within .methodDef s
      simp only [Source.counters] at *
      omega
  · simp +contextual [or_imp]

theorem typeDefRow (k : Nat) {base : TypeDefOrRef} (known : .index src base ∈ N ∨ base = .null)
    (counted : .atLeast .typeDef k ∈ N) :
    Gives src N (typeDefRow d base) fun _ => [.atLeast .typeDef (k + 1)] := by
  refine .numbers hd (.bind (.string? _) fun typeNamespace => .bind (.string _) fun name =>
    .bind (.push_counted .typeDef k ?_ (by simp [counted])) fun row => ?_)
  · rcases known with known | rfl <;> simp [Table.slack, *]
  · exact (attach _ (by simp)).keep.drop (by simp)

theorem typeDef (k : Nat) :
    Gives src (.atLeast .typeDef k :: N) (typeDef src d) fun _ => [.atLeast .typeDef (k + 1)] := by
  unfold Populate.typeDef
  split
  · exact .bind (.typeToken _) fun base => typeDefRow hd k (by simp) (by simp)
  · exact typeDefRow hd k (by simp) (by simp)

theorem fields (k : Nat) : Gives src (.atLeast .field k :: N) (fields src d)
    fun _ => [.atLeast .field (k + d.info.fields.size)] := by
  have size : d.fields.length = d.info.fields.size := by simp [Definition.fields]
  rw [← size]
  refine .forM_each .field k fun (f, row) h k => ?_
  refine .define (·.field hd h) (.bind (.fieldBlob f) fun _ => .bind (.string _) fun name =>
    .bind (.blob _) fun signature => .bind (.push_counted .field k ?_ (by simp)) fun _ => ?_)
  · simp
  · exact (attach _ (by simp)).keep.drop (by simp)

theorem methods (k : Nat) : Gives src (.atLeast .methodDef k :: N) (methods src d)
    fun _ => [.atLeast .methodDef (k + d.info.methods.size)] := by
  refine .of_numbered fun numbered => ?_
  have fits := numbered.definition hd
  have size : (d.methods.zip d.rows.firstParams.toList).length = d.info.methods.size := by
    simp [Definition.methods, fits.paramsSize]
  rw [← size]
  refine .forM_each .methodDef k fun ((m, row), firstParam) h k => ?_
  obtain ⟨member, param⟩ := List.of_mem_zip h
  have next := fits.params firstParam (by simpa using param)
  refine .define (·.method hd member) (.assume [.next src .param firstParam] (fun _ => ?_) ?_)
  · exact List.forall_mem_singleton.2 fun s =>
      ⟨next.1, Nat.le_trans next.2 (Nat.add_le_add_right (Nat.le_max_left ..) 1)⟩
  refine .bind (.methodBlob _ _ _) fun _ => .bind (.string _) fun name =>
    .bind (.blob _) fun signature => .bind (.push_counted .methodDef k ?_ (by simp)) fun _ => ?_
  · simp [Table.slack]
  · exact (attach _ (by simp)).keep.drop (by simp)

omit hd in
theorem param (k sequence : Nat) (p : Parameter) :
    Gives src (.atLeast .param k :: N) (param sequence p) fun _ => [.atLeast .param (k + 1)] := by
  refine .bind (.string? _) fun name => .bind (.push_counted .param k ?_ (by simp)) fun row => ?_
  · simp
  · exact .bind (.forM fun v _ => .constant v (by simp)) fun _ =>
      .bind (.forM fun descriptor _ => .marshal descriptor (by simp)) fun _ =>
        (attach _ (by simp)).keep.drop (by simp)

omit hd in
theorem params (k : Nat) : Gives src (.atLeast .param k :: N) (params d)
    fun _ => [.atLeast .param (k + (d.info.methods.toList.map Numbering.paramCount).sum)] := by
  refine .forM_counted .param _ k fun m _ k => ?_
  have size : Numbering.paramCount m = m.returnInfo.toList.length + (m.parameters.zipIdx 1).length := by
    cases returned : m.returnInfo <;> simp [Numbering.paramCount, returned]
  rw [size, ← Nat.add_assoc]
  exact .bind (.forM_each .param k fun p _ k => .param k 0 p) fun _ =>
    (Gives.forM_each (N := N) .param _ fun x _ k => .param k x.2 x.1).supply
      (by simp +contextual [or_imp])

theorem interfaces : Gives src N (interfaces src d) fun _ => [] := by
  refine .forM fun i _ => .numbers hd (.bind (.typeToken _) fun implemented =>
    .bind (.insert .interfaceImpl ?_) fun _ => ?_)
  · simp
  · exact .infer (.owner src (.interface d.rows.row implemented))
      (fun s facts =>
        ⟨_, facts (.present .interfaceImpl ⟨⟨d.rows.row⟩, implemented⟩) (by simp), rfl, rfl⟩)
      (attach _ (by simp))

theorem members : Gives src N (members src d) fun _ => [] := by
  refine .numbers hd (.bind (.interfaces hd) fun _ => .bind (.forM fun (f, row) h => ?_) fun _ =>
    .bind (.security _ (by simp)) fun _ =>
    .bind (.forM fun (m, row) h => .define (·.method hd h) (.security _ (by simp))) fun _ =>
    .bind (.forM fun _ _ => .bind (.insert .classLayout ?_) fun _ => .pure (by simp)) fun _ =>
    .forM fun (f, row) h => .define (·.field hd h) (.forM fun _ _ =>
      .bind (.insert .fieldLayout (by simp)) fun _ => .pure (by simp)))
  · exact .define (·.field hd h) (.bind (.forM fun v _ => .constant v (by simp)) fun _ =>
      .forM fun descriptor _ => .marshal descriptor (by simp))
  · simp

theorem propertyMap : Gives src N (propertyMap d) fun _ => [] := by
  refine .ite (fun _ => .pure (by simp)) fun some => .numbers hd (.define (t := .property)
    (n := d.rows.firstProperty) (fun numbered => ?_) (.bind (.push .propertyMap ?_) fun _ =>
      .pure (by simp)))
  · have positive : 0 < d.info.properties.size := by simpa [Array.size_pos_iff] using some
    have fits := (numbered.definition hd).properties
    exact ⟨fits.1, Nat.lt_of_lt_of_le (by omega) fits.2⟩
  · simp

theorem properties (k : Nat) : Gives src (.atLeast .property k :: N) (properties src d)
    fun _ => [.atLeast .property (k + d.info.properties.size)] := by
  have size : d.properties.length = d.info.properties.size := by simp [Definition.properties]
  rw [← size]
  refine .bind (.propertyMap hd) fun _ => .forM_each .property k fun (p, row) h k => ?_
  refine .define (·.property hd h) (.bind (.propertyBlob p) fun _ => .bind (.string _) fun name =>
    .bind (.blob _) fun signature => .bind (.push_counted .property k ?_ (by simp)) fun _ =>
    .bind (.forM fun v _ => .constant v (by simp)) fun _ => (attach _ (by simp)).keep.drop (by simp))
  simp

theorem eventMap : Gives src N (eventMap d) fun _ => [] := by
  refine .ite (fun _ => .pure (by simp)) fun some => .numbers hd (.define (t := .event)
    (n := d.rows.firstEvent) (fun numbered => ?_) (.bind (.push .eventMap ?_) fun _ => .pure (by simp)))
  · have positive : 0 < d.info.events.size := by simpa [Array.size_pos_iff] using some
    have fits := (numbered.definition hd).events
    exact ⟨fits.1, Nat.lt_of_lt_of_le (by omega) fits.2⟩
  · simp

theorem events (k : Nat) : Gives src (.atLeast .event k :: N) (events src d)
    fun _ => [.atLeast .event (k + d.info.events.size)] := by
  have size : d.events.length = d.info.events.size := by simp [Definition.events]
  rw [← size]
  refine .bind (.eventMap hd) fun _ => .forM_each .event k fun (e, row) h k => ?_
  refine .define (·.event hd h) (.bind (.typeToken _) fun kind => .bind (.string _) fun name =>
    .bind (.push_counted .event k ?_ (by simp)) fun _ => (attach _ (by simp)).keep.drop (by simp))
  simp

omit hd in
theorem accessor {association : CodedIndex .hasSemantics} (semantics : UInt16) (method : MethodId)
    (known : .index src association ∈ N) :
    Gives src N (accessor src association semantics method) fun _ => [] :=
  .bind_ofExcept fun _ row => .define (·.methodRow row)
    (.bind (.insert .methodSemantics (by simp [known])) fun _ =>
      .pure (by simp))

theorem accessors : Gives src N (accessors src d) fun _ => [] := by
  refine .bind (.forM fun (p, row) h => .define (·.property hd h) ?_) fun _ =>
    .forM fun (e, row) h => .define (·.event hd h) ?_
  · have tie (semantics : UInt16) (ms : List MethodId) {M : List (Fact late)}
        (known : .row src .property row ∈ M) : Gives src M
        (ms.forM (Populate.accessor src (.row .property row) semantics)) fun _ => [] :=
      .forM fun m _ => .accessor semantics m (by simp [known])
    exact .bind (tie _ _ (by simp)) fun _ => .bind (tie _ _ (by simp)) fun _ => tie _ _ (by simp)
  · have tie (semantics : UInt16) (ms : List MethodId) {M : List (Fact late)}
        (known : .row src .event row ∈ M) : Gives src M
        (ms.forM (Populate.accessor src (.row .event row) semantics)) fun _ => [] :=
      .forM fun m _ => .accessor semantics m (by simp [known])
    exact .bind (tie _ _ (by simp)) fun _ => .bind (tie _ _ (by simp)) fun _ =>
      .bind (tie _ _ (by simp)) fun _ => tie _ _ (by simp)

theorem methodImpls : Gives src N (methodImpls src d) fun _ => [] :=
  .forM fun _ _ => .numbers hd (.bind (.methodDefOrRef _) fun _ => .bind (.methodDefOrRef _) fun _ =>
    .bind (.insert .methodImpl (by simp)) fun _ => .pure (by simp))

omit hd in
theorem implMap {memberForwarded : CodedIndex .memberForwarded} (p : PlatformInvoke)
    (known : .index src memberForwarded ∈ N) :
    Gives src N (implMap src memberForwarded p) fun _ => [] :=
  .bind (.moduleRef _) fun _ => .bind (.string _) fun _ =>
    .bind (.insert .implMap (by simp [known])) fun _ =>
    .pure (by simp)

theorem implMaps : Gives src N (implMaps src d) fun _ => [] :=
  .bind (.forM fun (_, _) h => .forM fun _ _ => .define (·.field hd h) (.implMap _ (by simp))) fun _ =>
    .forM fun (_, _) h => .forM fun _ _ => .define (·.method hd h) (.implMap _ (by simp))

theorem fieldRvas : Gives src N (fieldRvas d) fun _ => [] := by
  refine .forM fun (f, row) h => .define (·.field hd h) (.forM fun initial _ =>
    .bind (.updateGet (Q := fun _ => []) fun s sound _ => ⟨{ sound with }, .of_eq rfl rfl, by simp⟩)
      fun offset => .bind (.insert .fieldRva ?_) fun position =>
      .update fun s sound _ => ⟨{ sound with }, .of_eq rfl rfl, by simp⟩)
  simp

theorem nestedClass : Gives src N (nestedClass src d) fun _ => [] :=
  .forM fun _ _ => .numbers hd (.bind_ofExcept fun _ row => .define (·.typeRow row)
    (.bind (.insert .nestedClass (by simp)) fun _ => .pure (by simp)))

end

end Gives
end Cil
