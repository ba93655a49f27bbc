import Cil.Proofs.InitialValues
import Cil.Proofs.MemberRuns
import Cil.Proofs.WaitingAttributes

/-!
The sorted tables of an assembled image. Each of them has the rows that were inserted for what the
module declares, no more and no fewer; they are in the order of what their key columns store, and rows
with one key are in the order in which they were inserted.
-/

namespace Cil

variable {t : Table} {ε : Type} {tables : Tables} {items : List ε}

/-- The constraints of generic parameters, each with the owner and the number of its parameter. -/
def Source.constraints (src : Source) : List (CodedIndex .typeOrMethodDef × UInt16 × TypeSig) :=
  (src.definitions.flatMap Populate.genericParameters).flatMap fun x =>
    x.2.2.constraints.map fun c => (x.1, x.2.1, c.constraint)

/-- The row of a constraint, whose owner is the row of its parameter in the final tables. -/
structure Row.GenericParamConstraint.IsFor (src : Source) (tables : Tables)
    (x : CodedIndex .typeOrMethodDef × UInt16 × TypeSig) (row : Row.GenericParamConstraint) : Prop where
  owner : row.owner.number = Populate.genericParamRow tables x.1 x.2.1
  constraint : ∃ s s', (typeToken src x.2.2).Runs s row.constraint s'

/-- The row of an attribute, whose parent is the row of its bearer in the final tables. -/
structure Row.CustomAttribute.IsFor (src : Source) (tables : Tables) (blobs : BlobHeap)
    (x : Bearer × Attribute) (row : Row.CustomAttribute) : Prop where
  parent : ∃ owner, x.1.WaitsAs src owner ∧ row.parent = Populate.ownerRow tables owner
  kind : ∃ s s', (attributeConstructor src x.2.constructor).Runs s row.kind s'
  value : ∃ blob, AttributeBlob.ofAttribute src.module x.2 = .ok blob ∧
    blobs.Has BlobHeap.encode row.value.offset blob

/-- The row of an interface, with the token that the session gives to it. -/
structure Row.InterfaceImpl.Binds (src : Source) (s : Session) (x : Nat × TypeSig)
    (row : Row.InterfaceImpl) : Prop where
  owner : row.owner.number = x.1
  interface : (typeToken src x.2).Runs s row.interface s

/-- As `IsFor`, with the token that the session gives to the constraint. -/
structure Row.GenericParamConstraint.Binds (src : Source) (s : Session) (tables : Tables)
    (x : CodedIndex .typeOrMethodDef × UInt16 × TypeSig) (row : Row.GenericParamConstraint) : Prop where
  owner : row.owner.number = Populate.genericParamRow tables x.1 x.2.1
  constraint : (typeToken src x.2.2).Runs s row.constraint s

/-- As `IsFor`, with the tokens that the session gives to what the row names. -/
structure Row.CustomAttribute.Binds (src : Source) (s : Session) (x : Bearer × Attribute)
    (row : Row.CustomAttribute) : Prop where
  parent : ∃ owner, x.1.WaitsIn src s owner ∧ row.parent = Populate.ownerRow s.tables owner
  kind : (attributeConstructor src x.2.constructor).Runs s row.kind s
  value : ∃ blob, AttributeBlob.ofAttribute src.module x.2 = .ok blob ∧
    s.blobs.Has BlobHeap.encode row.value.offset blob

theorem Row.GenericParamConstraint.Binds.isFor {src : Source} {s : Session}
    {x : CodedIndex .typeOrMethodDef × UInt16 × TypeSig} {row : Row.GenericParamConstraint}
    (h : row.Binds src s tables x) : row.IsFor src tables x :=
  ⟨h.owner, s, s, h.constraint⟩

theorem Row.CustomAttribute.Binds.isFor {src : Source} {s : Session} {x : Bearer × Attribute}
    {row : Row.CustomAttribute} (h : row.Binds src s x) : row.IsFor src s.tables s.blobs x := by
  obtain ⟨owner, waits, parent⟩ := h.parent
  exact ⟨⟨owner, waits.waitsAs, parent⟩, ⟨s, s, h.kind⟩, h.value⟩

/-- A sorted table: one row has been inserted for each item, and the rows are arranged by what they
store. -/
def Tables.Arranges (tables : Tables) (t : Table) {ε : Type} (R : ε → t.Row → Prop) (items : List ε) :
    Prop :=
  ∃ inserted, List.Forall₂ R items inserted ∧
    SortedRow.Arranged TableRow.storedKey inserted (tables.rows t).toList

theorem Tables.Arranges.imp {R R' : ε → t.Row → Prop} (h : tables.Arranges t R items)
    (weaker : ∀ x row, R x row → R' x row) : tables.Arranges t R' items := by
  obtain ⟨inserted, each, arranged⟩ := h
  exact ⟨inserted, each.imp weaker, arranged⟩

theorem Populate.genericParamRow_congr {ts ts' : Tables}
    (same : ts'.rows .genericParam = ts.rows .genericParam) :
    genericParamRow ts' = genericParamRow ts := by
  have parameters : ts'.genericParam = ts.genericParam := same
  funext owner number
  simp [genericParamRow, parameters]

namespace Emit.Registers

open Populate

variable (src : Source)

theorem interfaceImpls (d : Definition) :
    Registers src (fun _ => True) (.sorted .interfaceImpl) (members src d) (fun _ => True)
      (Each (Row.InterfaceImpl.Binds src) d.interfaceImpls) := by
  have others : ∀ p ∈ (memberPasses src d).tail, Pass src p := fun p hp =>
    pass_of_mem_memberPasses src d p (List.mem_of_mem_tail hp)
  have each (i : InterfaceImplementation) :
      Registers src (fun _ => True) (.sorted .interfaceImpl) (do
        let interface ← typeToken src i.interface
        let _ ← Emit.insert .interfaceImpl { owner := ⟨d.rows.row⟩, interface }
        Populate.attach (.interface d.rows.row interface) i.attributes) (fun _ => True)
        (Each (Row.InterfaceImpl.Binds src) [(d.rows.row, i.interface)]) :=
    bind_asks (.typeToken i.interface) (.besides .interfaceImpl rfl) fun interface =>
      of_fills (A := fun _ => True)
        (.bind_right (.insert fun _ run => .cons ⟨rfl, run⟩ .nil) fun _ => .attach (by simp) ..)
        (.bind (.insert trivial rfl _) fun _ => .attach trivial ..) fun _ _ _ => trivial
  have own : Registers src (fun _ => True) (.sorted .interfaceImpl) (interfaces src d) (fun _ => True)
      (Each (Row.InterfaceImpl.Binds src) d.interfaceImpls) := by
    rw [Definition.interfaceImpls, List.map_eq_flatMap]
    exact forM each
  rw [members_eq_passes]
  refine own.bind_right fun _ => (writes_passes src others).mono ?_
  rintro part (⟨t, foreign, rfl⟩ | ⟨p, hp, member⟩) same
  · cases same
    rcases foreign with reference | reference <;> cases reference
  · cases same
    revert p
    simp [memberPasses]

theorem constraints (tables : Tables)
    (parameters : List (CodedIndex .typeOrMethodDef × UInt16 × GenericParameter)) :
    Registers src (fun s => genericParamRow s.tables = genericParamRow tables)
      (.sorted .genericParamConstraint)
      (parameters.forM fun x => constraints src x.1 x.2.1 x.2.2)
      (fun s => genericParamRow s.tables = genericParamRow tables) fun later new =>
        List.Forall₂ (Row.GenericParamConstraint.Binds src later tables)
          (parameters.flatMap fun x => x.2.2.constraints.map fun c => (x.1, x.2.1, c.constraint))
          new := by
  refine forM fun x => (bind_get (Q := fun _ => True) fun s known => ?_).leading id
    fun faithful known run => ?_
  · rw [List.map_eq_flatMap]
    refine forM fun c => bind_asks (.typeToken c.constraint) (.besides .genericParamConstraint rfl)
      fun constraint => of_fills (A := fun _ => True)
        (.bind_right (.insert fun _ run => .cons ⟨by rw [known], run⟩ .nil)
          fun _ => .attach (by simp) ..)
        (.bind (.insert trivial rfl _) fun _ => .attach trivial ..) fun _ _ _ => trivial
  · have frame := (Writes.constraints (A := Part.Beside [.genericParam])
      .beside (by simp) (by simp)
      x.1 x.2.1 x.2.2).confined.run faithful run
    rw [genericParamRow_congr (frame.2.rows fun beside => beside .genericParam (by simp) rfl), known]

end Emit.Registers

theorem Table.isReference_of_sorted {inst : SortedRow t.Row} (h : t.sortedRow? = some inst) :
    t.isReference = false ∧ t ≠ .module := by
  cases t <;> simp_all [sortedRow?, isReference]

theorem Tables.arranges_of_foldl {inst : SortedRow t.Row} (sorted : t.sortedRow? = some inst)
    {R : ε → t.Row → Prop} {new : List t.Row}
    (added : (tables.rows t).toList = new.foldl SortedRow.into [])
    (holds : List.Forall₂ R items new) : tables.Arranges t R items :=
  ⟨new, holds, added ▸ (SortedRow.Arranged.foldl .nil new).stored sorted⟩

namespace Session

variable {R : Session → ε → t.Row → Prop}

theorem rows_ofModule (m : Module) (t : Table) : ((ofModule m).tables.rows t).toList = [] := by
  cases t <;> rfl

variable {src : Source} {key : Option Bytes} {keepsSymbols : Bool} {area : CodeArea} {s : Session}
  (h : (Module.emit src key keepsSymbols).Runs (.ofModule src.module) area s)

include h

theorem arranges_of_emit [inst : SortedRow t.Row] (sorted : t.sortedRow? = some inst)
    {items : List (List ε)}
    (fills : List.Forall₂ (fun p items => Emit.Fills (.sorted t) p.2 (Each R items))
      ((Populate.passes src key).filter (.rows t ∈ ·.1)) items) :
    s.tables.Arranges t (R s) items.flatten := by
  obtain ⟨own, other⟩ := Table.isReference_of_sorted sorted
  have all : Emit.Fills (.sorted t) (Module.emit src key keepsSymbols) (Each R items.flatten) := by
    refine .emit src key (fun u foreign same => ?_) fills
    cases same
    rcases foreign with reference | rfl
    · rw [own] at reference
      cases reference
    · exact other rfl
  obtain ⟨_, _, new, added, holds⟩ := all.run (faithful_ofModule src.module) h
  refine Tables.arranges_of_foldl sorted ?_ (holds s (.refl s))
  rw [← rows_ofModule src.module t]
  exact added

theorem arranges_of_pass [inst : SortedRow t.Row] (sorted : t.sortedRow? = some inst)
    {parts : List Part} {c : Emit Unit}
    (one : (Populate.passes src key).filter (.rows t ∈ ·.1) = [(parts, c)])
    (fills : Emit.Fills (.sorted t) c (Each R items)) : s.tables.Arranges t (R s) items := by
  have all : s.tables.Arranges t (R s) [items].flatten :=
    arranges_of_emit h sorted (one ▸ .cons fills .nil)
  simpa using all

theorem arranges_of_params [inst : SortedRow t.Row] (sorted : t.sortedRow? = some inst)
    (other : t ≠ .param) {g : Parameter × Nat → List ε} {items : List (List ε)}
    (idle : ∀ p ∈ (Populate.passes src key).take 4, Part.rows t ∉ p.1)
    (parts : ∀ p row, Emit.Fills (.sorted t) (Populate.paramParts p row) (Each R (g (p, row))))
    (fills : List.Forall₂ (fun p items => Emit.Fills (.sorted t) p.2 (Each R items))
        (((Populate.passes src key).drop 5).filter (.rows t ∈ ·.1)) items) :
    s.tables.Arranges t (R s) (src.parameters.flatMap g ++ items.flatten) := by
  obtain ⟨own, foreign⟩ := Table.isReference_of_sorted sorted
  have first := Emit.FillsFrom.params src (fun same => other (Part.rows.inj same).symm) parts
  have stable {s₁ s₂ : Session} (extended : s₁.Extends (· ≠ .rows .param) s₂)
      (next : Next .param 1 s₁) : Next .param 1 s₂ := by
    rwa [Next, extended.rows (by simp)]
  obtain ⟨new, added, holds, _⟩ := fills_of_emit src key 4 h first fills rfl
    (Populate.not_touched own foreign idle)
    (Populate.not_touched (t := .param) rfl (by simp) (by simp [Populate.passes])) stable rfl
  refine Tables.arranges_of_foldl sorted ?_ holds
  rw [← rows_ofModule src.module t]
  exact added

omit h in
theorem precedes_of_passes (key : Option Bytes) {ps : List (List Part × Emit Unit)} {s₁ s₂ : Session}
    (among : ∀ p ∈ ps, p ∈ Populate.passes src key) (cat : s₁.Catalogued src)
    (run : (ps.forM (·.2)).Runs s₁ () s₂) : s₂.Catalogued src ∧ s₁.Precedes s₂ :=
  (Populate.writes_passes src fun p hp => Populate.pass_of_mem src key p (among p hp)).precedes cat run

theorem bound_interfaceImpls :
    s.tables.Arranges .interfaceImpl (Row.InterfaceImpl.Binds src s)
      (src.definitions.flatMap (·.interfaceImpls)) := by
  obtain ⟨s₀, s₁, s₂, _, extends₀, _, cat₁, extends₁, here, cat₂, back, extends₃⟩ :=
    around_pass src key 5 rfl h
  have empty : (s₁.tables.rows .interfaceImpl).toList = [] := by
    rw [Populate.rows_eq extends₁ .interfaceImpl rfl (by simp) (by simp [Populate.passes]),
      Populate.rows_eq extends₀ .interfaceImpl rfl (by simp) (by simp), rows_ofModule]
  obtain ⟨_, _, _, new, added, holds⟩ :=
    (Emit.Registers.forM (Emit.Registers.interfaceImpls src)).run cat₁ trivial here
  obtain ⟨cat, precedes⟩ := precedes_of_passes key (by simp [Populate.passes]) cat₂ back
  refine Tables.arranges_of_foldl rfl ?_ (holds s cat precedes)
  rw [Populate.rows_eq extends₃ .interfaceImpl rfl (by simp) (by simp), ← empty]
  exact added

theorem bound_constraints :
    s.tables.Arranges .genericParamConstraint (Row.GenericParamConstraint.Binds src s s.tables)
      src.constraints := by
  obtain ⟨s₀, s₁, s₂, _, extends₀, _, cat₁, extends₁, here, cat₂, back, extends₃⟩ :=
    around_pass src key 14 rfl h
  obtain ⟨_, s', first, second⟩ := Emit.runs_bind.1 here
  have parameters : ((src.definitions.flatMap Populate.genericParameters).forM fun x =>
      Populate.genericParam x.1 x.2.1 x.2.2).Writes src (Part.Beside [.genericParamConstraint]) :=
    .forM fun x => .genericParam src (by simp) (by simp) ..
  have constraints : ((src.definitions.flatMap Populate.genericParameters).forM fun x =>
      Populate.constraints src x.1 x.2.1 x.2.2).Writes src (Part.Beside [.genericParam]) :=
    .forM fun x => .constraints .beside (by simp) (by simp) ..
  have cat' := (parameters.keeps cat₁ first).1
  have extends' := (parameters.confined.run cat₁.faithful first).2
  have extends₂ := (constraints.confined.run cat'.faithful second).2
  have known : Populate.genericParamRow s'.tables = Populate.genericParamRow s.tables := by
    refine Populate.genericParamRow_congr ?_
    rw [Populate.rows_eq extends₃ .genericParam rfl (by simp) (by simp),
      extends₂.rows fun beside => beside .genericParam (by simp) rfl]
  have empty : (s'.tables.rows .genericParamConstraint).toList = [] := by
    rw [extends'.rows fun beside => beside .genericParamConstraint (by simp) rfl,
      Populate.rows_eq extends₁ .genericParamConstraint rfl (by simp) (by simp [Populate.passes]),
      Populate.rows_eq extends₀ .genericParamConstraint rfl (by simp) (by simp), rows_ofModule]
  obtain ⟨_, _, _, new, added, holds⟩ :=
    (Emit.Registers.constraints src s.tables _).run cat' known second
  obtain ⟨cat, precedes⟩ := precedes_of_passes key (by simp [Populate.passes]) cat₂ back
  refine Tables.arranges_of_foldl rfl ?_ (holds s cat precedes)
  rw [Populate.rows_eq extends₃ .genericParamConstraint rfl (by simp) (by simp), ← empty]
  exact added

theorem bound_customAttributes
    (lengths : ∀ d ∈ src.definitions, d.info.methods.toList.length = d.rows.firstParams.toList.length) :
    s.tables.Arranges .customAttribute (Row.CustomAttribute.Binds src s) src.attributes := by
  obtain ⟨s₀, s₁, s₂, cat₀, extends₀, front, cat₁, extends₁, here, cat₂, back, _⟩ :=
    around_pass src key 16 rfl h
  obtain ⟨_, rfl⟩ := Emit.runs_pure.1 back
  have fresh : s₀.Fresh [.param, .manifestResource, .file, .exportedType] := by
    intro t ht
    have empty : s₀.tables.rows t = (ofModule src.module).tables.rows t := by
      refine extends₀.rows (Populate.not_touched ?_ ?_ (by simp)) <;>
        (revert t; decide)
    rw [Next, empty, ← Array.length_toList, rows_ofModule, List.length_nil]
  obtain ⟨_, _, _, waiting, added, waits⟩ :=
    (Emit.Registers.attributes src key lengths).run cat₀ fresh front
  obtain ⟨_, precedes⟩ := (Emit.Writes.customAttributes (A := fun _ => True)
    (.of_references fun _ => trivial) trivial trivial).precedes cat₁ here
  obtain ⟨taken, s', cleared, written⟩ := Emit.runs_bind.1 here
  obtain ⟨rfl, rfl⟩ := Prod.mk.inj (Emit.runs_modifyGet.1 cleared)
  have all : s₁.attributes.toList = waiting := by
    have none : s₀.attributes.toList = [] := by
      rw [extends₀.attributes (by simp [Populate.Touched])]
      rfl
    have := added.trans (foldl_append_one _ waiting)
    rwa [show Log.attributes.view s₀ = [] from none] at this
  rw [all] at written
  have frame : (waiting.forM fun x => Populate.customAttribute src x.1 x.2).Confined
      (Part.Beside [.interfaceImpl, .genericParam, .genericParamConstraint]) fun _ => True :=
    .forM fun x => (Emit.Writes.customAttribute .beside
      (by simp) ..).confined
  have cat' : Catalogued src { s₁ with attributes := #[] } :=
    cat₁.aloof (aloof_withAside s₁ { s₁.aside with attributes := #[] })
  have known : Populate.ownerRow s₁.tables = Populate.ownerRow s₂.tables :=
    Populate.ownerRow_congr fun t ht =>
      ((frame.run cat'.faithful written).2.rows fun beside => beside t ht rfl).symm
  have empty : (s₁.tables.rows .customAttribute).toList = [] := by
    rw [Populate.rows_eq extends₁ .customAttribute rfl (by simp) (by simp [Populate.passes]),
      Populate.rows_eq extends₀ .customAttribute rfl (by simp) (by simp), rows_ofModule]
  obtain ⟨_, _, _, new, added', carries⟩ :=
    (Emit.Registers.customAttributes src s₂.tables waiting).run cat' known written
  refine Tables.arranges_of_foldl rfl ?_
    ((forall₂_comp (waits s₂ cat₂ precedes) (carries s₂ cat₂ (.refl s₂))).imp fun x row hx => ?_)
  · rw [← empty]
    exact added'
  · obtain ⟨y, _, ⟨owner, same⟩, carried⟩ := hx
    exact ⟨⟨y.1, owner, carried.parent⟩, same ▸ carried.kind, same ▸ carried.value⟩

theorem constraints_of_emit :
    s.tables.Arranges .genericParamConstraint (Row.GenericParamConstraint.IsFor src s.tables)
      src.constraints :=
  (bound_constraints h).imp fun _ _ bound => bound.isFor

theorem customAttributes_of_emit
    (lengths : ∀ d ∈ src.definitions, d.info.methods.toList.length = d.rows.firstParams.toList.length) :
    s.tables.Arranges .customAttribute (Row.CustomAttribute.IsFor src s.tables s.blobs)
      src.attributes :=
  (bound_customAttributes h lengths).imp fun _ _ bound => bound.isFor

end Session

/-- The sorted tables of an image: what each of them holds rows for, in the order of insertion. -/
structure Image.SortsTables (src : Source) (image : Image) : Prop where
  interfaceImpl : image.tables.Arranges .interfaceImpl (Row.InterfaceImpl.IsFor src)
    (src.definitions.flatMap (·.interfaceImpls))
  constant : image.tables.Arranges .constant (Row.Constant.IsFor image.blobs) src.constants
  customAttribute : image.tables.Arranges .customAttribute
    (Row.CustomAttribute.IsFor src image.tables image.blobs) src.attributes
  fieldMarshal : image.tables.Arranges .fieldMarshal (Row.FieldMarshal.IsFor image.blobs) src.marshals
  declSecurity : image.tables.Arranges .declSecurity (Row.DeclSecurity.IsFor src image.blobs)
    src.security
  classLayout : image.tables.Arranges .classLayout Eq (src.definitions.flatMap (·.classLayouts))
  fieldLayout : image.tables.Arranges .fieldLayout Eq (src.definitions.flatMap (·.fieldLayouts))
  methodSemantics : image.tables.Arranges .methodSemantics (Row.MethodSemantics.IsFor src)
    (src.definitions.flatMap (·.semantics))
  methodImpl : image.tables.Arranges .methodImpl (Row.MethodImpl.IsFor src)
    (src.definitions.flatMap (·.overrides))
  implMap : image.tables.Arranges .implMap (Row.ImplMap.IsFor src image.strings)
    (src.definitions.flatMap (·.platformInvokes))
  fieldRva : image.tables.Arranges .fieldRva (fun x row => row = { rva := 0, field := ⟨x.1⟩ })
    (src.definitions.flatMap (·.initialValues))
  nestedClass : image.tables.Arranges .nestedClass (Row.NestedClass.IsFor src)
    (src.definitions.flatMap (·.enclosing))
  genericParam : image.tables.Arranges .genericParam (Row.GenericParam.IsFor image.strings)
    (src.definitions.flatMap Populate.genericParameters)
  genericParamConstraint : image.tables.Arranges .genericParamConstraint
    (Row.GenericParamConstraint.IsFor src image.tables) src.constraints

namespace Session

variable {src : Source} {key : Option Bytes} {keepsSymbols : Bool} {area : CodeArea} {s : Session}
  (h : (Module.emit src key keepsSymbols).Runs (.ofModule src.module) area s)

include h

theorem fieldRvas_of_emit :
    s.tables.Arranges .fieldRva (fun x row => row = { rva := 0, field := ⟨x.1⟩ })
      (src.definitions.flatMap (·.initialValues)) := by
  obtain ⟨aligned, new, stores, arranged, _⟩ := initialValues_of_emit h
  have rows : (s.tables.fieldRva.toList.zip s.fieldData.toList).map (·.1) = s.tables.fieldRva.toList :=
    List.map_fst_zip (Nat.le_of_eq (by simpa using aligned.symm))
  have plain : SortedRow.Arranged SortedRow.key (new.map (·.1)) s.tables.fieldRva.toList :=
    rows ▸ SortedRow.Arranged.map arranged
  refine ⟨new.map (·.1), ?_, plain.stored (t := .fieldRva) rfl⟩
  rw [List.forall₂_map_right_iff]
  exact stores.imp fun _ _ stored => stored.row

end Session

namespace Module

theorem sorted_tables_arranged {σ : Type} {m : Module} {options : Options}
    {writer : Option (SymbolWriter σ)} {image : Image} {state state' : σ}
    (h : (m.assemble options writer).run state = (.ok image, state')) :
    TableStream.sorted = TableStream.mask [.interfaceImpl, .constant, .customAttribute, .fieldMarshal,
        .declSecurity, .classLayout, .fieldLayout, .methodSemantics, .methodImpl, .implMap, .fieldRva,
        .nestedClass, .genericParam, .genericParamConstraint] ∧
      ∃ n, Numbering.ofModule m = .ok n ∧ image.SortsTables ⟨m, n⟩ := by
  obtain ⟨symbols, made⟩ := image_of_assemble h
  obtain ⟨n, key, area, s, entryPoint, numbering, ran, _, rfl⟩ := image_eq_ok made
  obtain ⟨_, ts, placed, _⟩ := Source.definitions_eq_place numbering
  have lengths : ∀ d ∈ Source.definitions ⟨m, n⟩,
      d.info.methods.toList.length = d.rows.firstParams.toList.length := fun d hd =>
    (Numbering.Counters.methods_place d (placed ▸ hd)).2
  have constants := Session.arranges_of_params (t := .constant) (g := fun x =>
    x.1.default.toList.map ((.of .param x.2 : CodedIndex .hasConstant), ·)) ran rfl (by simp)
    (by simp [Populate.passes]) .paramConstants (show List.Forall₂ _ [_, _] _ from
      .cons (.forM (.memberConstants _)) (.cons (.forM (.propertyConstants _)) .nil))
  have marshals := Session.arranges_of_params (t := .fieldMarshal) (g := fun x =>
    x.1.marshal.toList.map ((.of .param x.2 : CodedIndex .hasFieldMarshal), ·)) ran rfl (by simp)
    (by simp [Populate.passes]) .paramMarshals (show List.Forall₂ _ [_] _ from
      .cons (.forM (.memberMarshals _)) .nil)
  have security := Session.arranges_of_emit (t := .declSecurity) ran rfl
    (show List.Forall₂ _ [_, _] _ from
      .cons (.forM (.memberSecurity _)) (.cons (.manifestSecurity _ key) .nil))
  exact ⟨rfl, n, numbering, {
    interfaceImpl := Session.arranges_of_pass ran rfl rfl (.forM (.memberInterfaces _))
    constant := by simpa [Source.constants, imageOf] using constants
    customAttribute := Session.customAttributes_of_emit ran lengths
    fieldMarshal := by simpa [Source.marshals, imageOf] using marshals
    declSecurity := by simpa [Source.security, imageOf] using security
    classLayout := Session.arranges_of_pass ran rfl rfl (.forM (.memberClassLayouts _))
    fieldLayout := Session.arranges_of_pass ran rfl rfl (.forM (.memberFieldLayouts _))
    methodSemantics := Session.arranges_of_pass ran rfl rfl (.forM (.accessors _))
    methodImpl := Session.arranges_of_pass ran rfl rfl (.forM (.methodImpls _))
    implMap := Session.arranges_of_pass ran rfl rfl (.forM (.implMaps _))
    fieldRva := Session.fieldRvas_of_emit ran
    nestedClass := Session.arranges_of_pass ran rfl rfl (.forM (.nestedClass _))
    genericParam := Session.arranges_of_pass ran rfl rfl (.genericParams _)
    genericParamConstraint := Session.constraints_of_emit ran }⟩

/-- A type whose attributes are declared before those of its field, and a constant of a parameter before
that of the field. -/
def exhibit : Module where
  name := "Exhibit"
  types := #[
    .globals,
    { name := "Mark", scope := .assembly ⟨0⟩, methods := #[.ofConstructor []] },
    { name := "Frame", scope := .assembly ⟨0⟩ },
    { name := "Shape"
      interfaces := [{ interface := .named ⟨2⟩ }, { interface := .named ⟨1⟩ }]
      genericParameters := [{ name := "T", constraints := [{ constraint := .named ⟨2⟩ }] }]
      fields := #[
        { name := "unit"
          default := some (.scalar (.int32 1))
          offset := some 8
          attributes := [{ constructor := { method := ⟨⟨1⟩, 0⟩ } }] }]
      methods := #[
        { name := "Scale"
          signature := { isInstance := true, parameters := [Primitive.int32] }
          isAbstract := true
          parameters := [{ default := some (.scalar (.int32 2)) }] }]
      properties := #[{ name := "Unit", getter := some ⟨⟨3⟩, 0⟩ }]
      attributes := [
        { constructor := { method := ⟨⟨1⟩, 0⟩ } },
        { constructor := { method := ⟨⟨1⟩, 0⟩ } }] }]
  assemblyReferences := #[{ name := "mscorlib" }]

theorem sorted_tables_arranged_exhibit :
    ∃ image, (exhibit.assemble {} none : Service Unit Image).run () = (.ok image, ()) ∧
      ((Table.all.filter (·.isSorted)).map fun t =>
        (image.tables.rows t).toList.map TableRow.storedKey) = [
        [[2, 5], [2, 9]], [[4], [5]], [[33], [67], [67]], [], [], [], [[1]], [[3]], [], [], [], [],
        [[4, 0]], [[1]]] ∧
      ∃ n, Numbering.ofModule exhibit = .ok n ∧ image.SortsTables ⟨exhibit, n⟩ := by
  refine (exists_assembled ?_).imp fun _ h => ⟨h.1, h.2, (sorted_tables_arranged h.1).2⟩
  decide +kernel

end Module
end Cil
